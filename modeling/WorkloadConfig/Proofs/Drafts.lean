import WorkloadConfig.Proofs.Files
import WorkloadConfig.Store.Draft

namespace WorkloadConfig

/-- A key that was not there comes and goes without a trace. -/
theorem Table.erase_put {κ α : Type} [DecidableEq κ] {t : Table κ α} {key : κ}
    (fresh : t.find? key = none) (a : α) : (t.put key a).erase key = t := by
  induction t with
  | nil => simp [put, erase]
  | cons entry rest ih =>
    by_cases same : entry.1 = key
    · simp [find?, same] at fresh
    · simp only [find?, same, if_false] at fresh
      simpa [put, erase, same] using ih fresh

namespace Location
variable (above : Location) (last : String)

theorem below_below (l : Location) (names more : List String) :
    (l.below names).below more = l.below (names ++ more) := by
  simp only [below, List.append_assoc]

theorem parent_below : (above.below [last]).parent = above := by
  simp [parent, below]

theorem withSuffix_below (suffix : String) :
    (above.below [last]).withSuffix suffix = above.below [last ++ suffix] := by
  simp [withSuffix, below]

theorem length_draft (draw : Draw) :
    ("." ++ last ++ "." ++ draw.text).length = last.length + 10 := by
  have length : draw.text.length = 8 := by simpa using (Bool.and_eq_true_iff.mp draw.valid).1
  simp only [String.length_append, length, show ".".length = 1 from rfl]
  omega

theorem draft_below (draw : Draw) :
    (above.below [last]).draft draw = above.below ["." ++ last ++ "." ++ draw.text] := by
  simp [draft, below]

variable {above last}

/-- What lies in one directory is told apart by its name. -/
theorem eq_of_place?_below {other : String} {place : Place} (down : last ≠ "..")
    (down' : other ≠ "..") (one : (above.below [last]).place? = some place)
    (two : (above.below [other]).place? = some place) : last = other := by
  rw [place?_below_of_down _ (by simpa using down.symm), Option.map_eq_some_iff] at one
  rw [place?_below_of_down _ (by simpa using down'.symm), Option.map_eq_some_iff] at two
  obtain ⟨here, atHere, rfl⟩ := one
  obtain ⟨here', atHere', same⟩ := two
  cases Option.some.inj (atHere.symm.trans atHere')
  simpa using same.symm

end Location

namespace FileTree
variable {t t' t'' : FileTree} {l draft : Location} {place goal : Place} {text : String}

/-- The tree with the text in a file at the place. -/
def withFile (t : FileTree) (place : Place) (text : String) : FileTree :=
  { t with nodes := t.nodes.put place (.file text) }

theorem node?_congr (same : t'.nodes = t.nodes) (place : Place) : t'.node? place = t.node? place := by
  rw [node?, node?, same]

theorem text?_congr (same : t'.nodes = t.nodes) (place : Place) : t'.text? place = t.text? place := by
  rw [text?, text?, node?_congr same]

theorem find?_of_node?_eq_none (free : t.node? place = none) : t.nodes.find? place = none := by
  unfold node? at free
  split at free
  · cases free
  · exact free

theorem node?_of_put {node : Node} (nodes : t'.nodes = t.nodes.put place node)
    (below : t.node? place ≠ some .directory) (other : Place) :
    t'.node? other = if other = place then some node else t.node? other :=
  (node?_congr (t := { t with nodes := t.nodes.put place node }) nodes other).trans
    (t.node?_put place other node below)

theorem text?_of_put (nodes : t'.nodes = t.nodes.put place (.file text))
    (below : t.node? place ≠ some .directory) (other : Place) :
    t'.text? other = if other = place then some text else t.text? other := by
  rw [text?, text?, node?_of_put nodes below]
  by_cases same : other = place <;> simp only [same, if_true, if_false]

/-- Locations lead to the same places where the directories are the same. -/
theorem placeOf_iff (same : ∀ here, t'.node? here = some .directory ↔ t.node? here = some .directory) :
    t'.placeOf l = .ok place ↔ t.placeOf l = .ok place := by
  have keeps (u u' : FileTree) (directories : ∀ here, u.node? here = some .directory →
      u'.node? here = some .directory) : Keeps (fun _ => True) u u' :=
    ⟨directories, fun _ apart => absurd trivial apart⟩
  exact ⟨(keeps t' t fun here => (same here).mp).placeOf, (keeps t t' fun here => (same here).mpr).placeOf⟩

theorem placeOf_iff_of_put (nodes : t'.nodes = t.nodes.put place (.file text))
    (below : t.node? place ≠ some .directory) {at' : Place} :
    t'.placeOf l = .ok at' ↔ t.placeOf l = .ok at' := by
  refine placeOf_iff fun here => ?_
  rw [node?_of_put nodes below]
  split
  · rename_i same
    subst same
    simp [below]
  · exact Iff.rfl

theorem node?_withFile (below : t.node? place ≠ some .directory) (other : Place) :
    (t.withFile place text).node? other =
      if other = place then some (.file text) else t.node? other :=
  node?_of_put rfl below other

theorem placeOf_withFile (below : t.node? place ≠ some .directory) {at' : Place} :
    (t.withFile place text).placeOf l = .ok at' ↔ t.placeOf l = .ok at' :=
  placeOf_iff_of_put rfl below

theorem write_eq_ok : t.write l text = .ok t' ↔ ∃ place, t.placeOf l = .ok place ∧
    t.node? place ≠ some .directory ∧ t' = t.withFile place text := by
  simp only [write, Result.bind_eq_ok]
  refine exists_congr fun place => and_congr_right fun _ => ?_
  split
  · rename_i directory
    simp [refuse, directory]
  · rename_i notDirectory
    rw [Except.ok.injEq, eq_comm]
    exact ⟨fun same => ⟨notDirectory, same⟩, fun both => both.2⟩

theorem create_of_free (there : t.placeOf l = .ok place) (free : t.node? place = none) :
    t.create l = .ok (t.withFile place "") := by
  simp [create, write, there, free, withFile]

theorem create_eq_ok : t.create l = .ok t' ↔ ∃ place, t.placeOf l = .ok place ∧
    t.node? place = none ∧ t' = t.withFile place "" := by
  constructor
  · intro created
    obtain ⟨place, there, created⟩ := Result.bind_eq_ok.mp created
    split at created
    · cases created
    · rename_i free
      have free : t.node? place = none := by simpa using free
      obtain ⟨place', there', -, rfl⟩ := write_eq_ok.mp created
      cases Except.ok.inj (there.symm.trans there')
      exact ⟨place, there, free, rfl⟩
  · rintro ⟨place, there, free, rfl⟩
    exact create_of_free there free

/-- The file goes, and with it what is known of its lock. -/
theorem discard_of_file (there : t.placeOf l = .ok place) (file : t.node? place = some (.file text)) :
    t.discard l =
      .ok { t with nodes := t.nodes.erase place, locked := t.locked.filter (· ≠ place) } := by
  simp [discard, remove, there, file]

theorem discard_of_free (there : t.placeOf l = .ok place) (free : t.node? place = none) :
    t.discard l = .ok t := by
  simp [discard, remove, there, free, refuse]

theorem rename_eq_ok (there : t.placeOf draft = .ok place) (file : t.node? place = some (.file text))
    (atGoal : t.placeOf l = .ok goal) (apart : place ≠ goal)
    (below : t.node? goal ≠ some .directory) : t.rename draft l = .ok { t with
      nodes := (t.nodes.erase place).put goal (.file text)
      locked := (t.locked.filter (· ≠ goal)).map fun held => if held = place then goal else held } := by
  simp [rename, there, atGoal, file, apart, below]

theorem rename_eq_error (there : t.placeOf draft = .ok place)
    (file : t.node? place = some (.file text))
    (blocked : ∀ goal, t.placeOf l = .ok goal → place ≠ goal ∧ t.node? goal = some .directory) :
    ∃ failure, t.rename draft l = .error failure := by
  cases atGoal : t.placeOf l with
  | error failure => exact ⟨failure, by simp [rename, there, atGoal]⟩
  | ok goal =>
    obtain ⟨apart, directory⟩ := blocked goal atGoal
    exact ⟨_, by simp [rename, there, atGoal, file, apart, directory, refuse]; rfl⟩

/-- A draft has a name of its own in the directory of the document. -/
theorem createDraft_eq_ok {draws : List Draw} (created : t.createDraft l draws = .ok (draft, t')) :
    ∃ draw ∈ draws, draft = l.draft draw ∧ t.create draft = .ok t' := by
  induction draws with
  | nil => cases created
  | cons draw rest ih =>
    unfold createDraft at created
    split at created
    · rename_i made
      cases created
      exact ⟨draw, List.mem_cons_self, rfl, made⟩
    · obtain ⟨other, member, same, made⟩ := ih created
      exact ⟨other, List.mem_cons_of_mem _ member, same, made⟩
    · cases created

section
variable (there : t.placeOf draft = .ok place) (free : t.node? place = none)
include there free

/-- The new draft is filled. -/
theorem write_draft (text : String) :
    (t.withFile place "").write draft text = .ok (t.withFile place text) := by
  have below : t.node? place ≠ some .directory := by simp [free]
  refine write_eq_ok.mpr ⟨place, (placeOf_withFile below).mpr there, ?_, ?_⟩
  · rw [node?_withFile below, if_pos rfl]
    simp
  · rw [withFile, withFile, withFile, Table.put_put]

/-- Without a directory in its place, the document is put there and no draft is left to discard. -/
theorem submit_eq_ok (atGoal : t.placeOf l = .ok goal) (apart : place ≠ goal)
    (below : t.node? goal ≠ some .directory) (text : String) :
    ∃ t', (t.withFile place "").submit draft l text = (.ok (), t') ∧ t'.discard draft = .ok t' ∧
      t'.nodes = t.nodes.put goal (.file text) ∧
      (place ∉ t.locked → goal ∉ t.locked → t'.locked = t.locked) := by
  have fresh : t.node? place ≠ some .directory := by simp [free]
  have file : (t.withFile place text).node? place = some (.file text) := by
    rw [node?_withFile fresh, if_pos rfl]
  have open' : (t.withFile place text).node? goal ≠ some .directory := by
    rwa [node?_withFile fresh, if_neg apart.symm]
  have moved := rename_eq_ok ((placeOf_withFile fresh).mpr there) file
    ((placeOf_withFile fresh).mpr atGoal) apart open'
  have gone : (t.withFile place text).nodes.erase place = t.nodes :=
    Table.erase_put (find?_of_node?_eq_none free) _
  refine ⟨_, by rw [submit, write_draft there free]; simp only [moved]; rfl, ?_, by rw [gone], ?_⟩
  · refine discard_of_free ((placeOf_iff_of_put (by rw [gone]) below).mpr there) ?_
    rw [node?_of_put (t := t) (by rw [gone]) below, if_neg apart, free]
  · intro unlocked unlocked'
    have kept : t.locked.filter (· ≠ goal) = t.locked :=
      List.filter_eq_self.mpr fun held member => decide_eq_true fun same : held = goal =>
        unlocked' (same ▸ member)
    have stays : t.locked.map (fun held => if held = place then goal else held) = t.locked := by
      refine (List.map_congr_left fun held member => ?_).trans t.locked.map_id'
      exact if_neg fun same : held = place => unlocked (same ▸ member)
    exact (congrArg _ kept).trans stays

/-- If the document cannot be put in its place, the draft is discarded. -/
theorem submit_eq_error (text : String)
    (blocked : ∀ goal, t.placeOf l = .ok goal → place ≠ goal ∧ t.node? goal = some .directory) :
    ∃ failure t' t'', (t.withFile place "").submit draft l text = (.error failure, t') ∧
      t'.discard draft = .ok t'' ∧ t''.nodes = t.nodes := by
  have fresh : t.node? place ≠ some .directory := by simp [free]
  have atDraft : (t.withFile place text).placeOf draft = .ok place :=
    (placeOf_withFile fresh).mpr there
  have file : (t.withFile place text).node? place = some (.file text) := by
    rw [node?_withFile fresh, if_pos rfl]
  obtain ⟨failure, refused⟩ := rename_eq_error (l := l) atDraft file fun goal atGoal => by
    obtain ⟨apart, directory⟩ := blocked goal ((placeOf_withFile fresh).mp atGoal)
    exact ⟨apart, by rwa [node?_withFile fresh, if_neg apart.symm]⟩
  refine ⟨failure, _, _, by rw [submit, write_draft there free]; simp only [refused],
    discard_of_file atDraft file, ?_⟩
  exact Table.erase_put (find?_of_node?_eq_none free) _

end

/-- Writing a document whole either fails and changes no node, or changes the document's only. -/
theorem install_cases {above : Location} {last : String} (down : last ≠ "..") {outcome : Result Unit}
    (installed : t.install (above.below [last]) text = (outcome, t')) :
    (∃ failure, outcome = .error failure ∧ t'.nodes = t.nodes) ∨
      outcome = .ok () ∧ ∃ goal, t.placeOf (above.below [last]) = .ok goal ∧
        t.node? goal ≠ some .directory ∧ t'.nodes = t.nodes.put goal (.file text) := by
  unfold install at installed
  split at installed
  · cases installed
    exact .inl ⟨_, rfl, rfl⟩
  · rename_i draft t₁ created
    obtain ⟨draw, -, rfl, made⟩ := createDraft_eq_ok created
    obtain ⟨place, there, free, rfl⟩ := create_eq_ok.mp made
    have apart (goal : Place) (atGoal : t.placeOf (above.below [last]) = .ok goal) : place ≠ goal := by
      rintro rfl
      rw [Location.draft_below] at there
      have length := Location.length_draft last draw
      have notParent : "." ++ last ++ "." ++ draw.text ≠ ".." := by
        intro same
        simp only [same, show "..".length = 2 from rfl] at length
        omega
      have same := Location.eq_of_place?_below notParent down (place?_of_placeOf there)
        (place?_of_placeOf atGoal)
      rw [same] at length
      omega
    by_cases open' : ∃ goal, t.placeOf (above.below [last]) = .ok goal ∧ t.node? goal ≠ some .directory
    · obtain ⟨goal, atGoal, below⟩ := open'
      obtain ⟨t₂, submitted, discarded, nodes, -⟩ :=
        submit_eq_ok there free atGoal (apart goal atGoal) below text
      simp only [submitted, discarded] at installed
      cases installed
      exact .inr ⟨rfl, goal, atGoal, below, nodes⟩
    · obtain ⟨failure, t₂, t₃, submitted, discarded, nodes⟩ :=
        submit_eq_error (l := above.below [last]) there free text fun goal atGoal =>
          ⟨apart goal atGoal, Decidable.byContradiction fun below => open' ⟨goal, atGoal, below⟩⟩
      simp only [submitted, discarded] at installed
      cases installed
      exact .inl ⟨failure, rfl, nodes⟩

/-- With a free name for the draft, a document is written unless a directory is in its place. -/
theorem install_eq_ok (there : t.placeOf (l.draft t.draws.first) = .ok place)
    (free : t.node? place = none) (atGoal : t.placeOf l = .ok goal) (apart : place ≠ goal)
    (below : t.node? goal ≠ some .directory) (text : String) :
    ∃ t', t.install l text = (.ok (), t') ∧ t'.nodes = t.nodes.put goal (.file text) ∧
      (place ∉ t.locked → goal ∉ t.locked → t'.locked = t.locked) := by
  obtain ⟨t', submitted, discarded, nodes, locked⟩ := submit_eq_ok there free atGoal apart below text
  have created : t.createDraft l t.draws.all = .ok (l.draft t.draws.first, t.withFile place "") := by
    rw [Draws.all, createDraft, create_of_free there free]
  exact ⟨t', by simp only [install, created, submitted, discarded], nodes, locked⟩

section
variable (t : FileTree) (draws : Draws) (l : Location)

/-- The tree with other draws for the next draft. -/
def drawing (t : FileTree) (draws : Draws) : FileTree :=
  { t with draws := draws }

theorem walk_drawing (here : Place) (names : List String) :
    (t.drawing draws).walk here names = t.walk here names := by
  induction names generalizing here with
  | nil => rfl
  | cons name rest ih => simp only [walk, ih, show (t.drawing draws).node? here = t.node? here from rfl]

theorem placeOf_drawing : (t.drawing draws).placeOf l = t.placeOf l := by
  simp only [placeOf, walk_drawing]

theorem isDirectory_drawing : (t.drawing draws).isDirectory l = t.isDirectory l := by
  simp only [isDirectory, nodeAt?, placeOf_drawing]
  rfl

theorem makeDirectory_drawing :
    (t.drawing draws).makeDirectory l = (·.drawing draws) <$> t.makeDirectory l := by
  simp only [makeDirectory, placeOf_drawing]
  split
  · rfl
  · cases t.placeOf l with
    | error failure => rfl
    | ok place =>
      simp only [Result.ok_bind, show (t.drawing draws).node? place = t.node? place from rfl]
      split <;> rfl

theorem settle_drawing (outcome : Result FileTree) :
    (t.drawing draws).settle l ((·.drawing draws) <$> outcome) =
      (t.settle l outcome).map id (·.drawing draws) := by
  cases outcome with
  | ok made => rfl
  | error failure =>
    rw [show (·.drawing draws) <$> (.error failure : Result FileTree) = .error failure from rfl]
    cases failure with
    | file e => simp [settle, isDirectory_drawing]
    | _ => rfl

/-- What comes of making the directory, or of something else where its parent is missing. -/
def settleOr (t : FileTree) (l : Location) (missing : String → Result Unit × FileTree) :
    Result Unit × FileTree :=
  match t.makeDirectory l with
  | .error (.file ⟨.notFound, path⟩) => missing path
  | outcome => t.settle l outcome

theorem makeDown_succ (n : Nat) : makeDown l (n + 1) t =
    t.settleOr (l.keep (n + 1)) fun _ => match makeDown l n t with
      | (.ok _, t) => t.settleOr (l.keep (n + 1)) fun path => (.error (.file ⟨.notFound, path⟩), t)
      | failed => failed := rfl

theorem settleOr_drawing {missing missing' : String → Result Unit × FileTree}
    (same : ∀ path, missing' path = (missing path).map id (·.drawing draws)) :
    (t.drawing draws).settleOr l missing' = (t.settleOr l missing).map id (·.drawing draws) := by
  have settles := t.settle_drawing draws l (t.makeDirectory l)
  rw [settleOr, settleOr, makeDirectory_drawing]
  cases made : t.makeDirectory l with
  | ok made => rfl
  | error failure =>
    rw [made] at settles
    cases failure with
    | file e => obtain ⟨refusal, path⟩ := e; cases refusal <;> first | exact same path | exact settles
    | _ => exact settles

theorem makeDown_drawing (n : Nat) :
    makeDown l n (t.drawing draws) = (makeDown l n t).map id (·.drawing draws) := by
  induction n generalizing t with
  | zero => rw [makeDown, makeDown, makeDirectory_drawing, settle_drawing]
  | succ n ih =>
    rw [makeDown_succ, makeDown_succ, ih]
    refine settleOr_drawing t draws _ fun path => ?_
    rcases makeDown l n t with ⟨_ | _, above⟩
    · rfl
    · exact settleOr_drawing above draws _ fun _ => rfl

/-- What is drawn matters for drafts only. -/
theorem makeDirectories_drawing : (t.drawing draws).makeDirectories l =
    ((t.makeDirectories l).1, (t.makeDirectories l).2.drawing draws) :=
  makeDown_drawing t draws l l.segments.length

end

end FileTree
end WorkloadConfig
