import WorkloadConfig.Config.Source

namespace WorkloadConfig

structure LoadedConfig where
  cluster : ClusterConfig
  project : Option ProjectConfig

/-- Keeps what it has loaded, and counts how often it asked its source. -/
structure ConfigLoader where
  timeout : Binary64
  loaded : Table String LoadedConfig := []
  asked : Nat := 0

namespace ConfigLoader

def clusterSelector : Selector := [("type", "cluster")]

/-- Each namespace is a project of its own. -/
def projectSelector (ns : String) : Selector := [("type", "project"), ("project", ns)]

def select (loader : ConfigLoader) (source : ConfigSource) (selector : Selector) :
    Result (List Value) :=
  source.availability.bounded loader.timeout ("config selector " ++ selector.text)
    (source.select (selector.mapValues .str))

def ambiguous {α : Type} (selector : Selector) (records : List Value) : Result α :=
  Result.fail (.configAmbiguous selector (Sorting.texts (records.map ConfigRecord.name)))

/-- A record that its model rejects makes the configuration invalid. -/
def accept {α : Type} (level : String) (record : Value) : Result α → Result α
  | .error (.invalid report) =>
    Result.fail (.config (.invalidRecord level (ConfigRecord.name record) report))
  | outcome => outcome

def clusterOf : List Value → Result ClusterConfig
  | [] => Result.fail (.configNotFound clusterSelector)
  | [record] => accept "cluster" record (ClusterConfig.ofRecord record)
  | records => ambiguous clusterSelector records

def projectOf (ns : String) : List Value → Result (Option ProjectConfig)
  | [] => .ok none
  | [record] => accept "project" record (some <$> ProjectConfig.ofRecord record)
  | records => ambiguous (projectSelector ns) records

def loadCluster (loader : ConfigLoader) (source : ConfigSource) :
    Result ClusterConfig × ConfigLoader :=
  (loader.select source clusterSelector >>= clusterOf, { loader with asked := loader.asked + 1 })

def loadProject (loader : ConfigLoader) (source : ConfigSource) (ns : String) :
    Result (Option ProjectConfig) × ConfigLoader :=
  (loader.select source (projectSelector ns) >>= projectOf ns,
    { loader with asked := loader.asked + 1 })

/-- The configuration of the namespace; the project is asked for only once the cluster is there. -/
def load (loader : ConfigLoader) (source : ConfigSource) (ns : String) :
    Result LoadedConfig × ConfigLoader :=
  match loader.loaded.find? ns with
  | some found => (.ok found, loader)
  | none =>
    match loader.loadCluster source with
    | (.error failure, loader) => (.error failure, loader)
    | (.ok cluster, loader) =>
      match loader.loadProject source ns with
      | (.error failure, loader) => (.error failure, loader)
      | (.ok project, loader) =>
        let found := ⟨cluster, project⟩
        (.ok found, { loader with loaded := loader.loaded.put ns found })

end ConfigLoader
end WorkloadConfig
