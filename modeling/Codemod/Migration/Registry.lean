import Codemod.Migration.Rule

namespace Codemod.Migration

/-- The known migrations, ascending by version. -/
structure Registry where
  migrations : List Migration

namespace Registry

def empty : Registry := ⟨[]⟩

/-- Insert before the first later migration. -/
def insertSorted (m : Migration) : List Migration → List Migration
  | [] => [m]
  | n :: rest => if n.version.le m.version then n :: insertSorted m rest else m :: n :: rest

/-- The first stage that repeats an earlier one, with the version that has it already. -/
def clash? (version : Version) (taken : List (String × Version)) : List String → Option (String × Version)
  | [] => none
  | id :: rest =>
    match taken.lookup id with
    | some owner => some (id, owner)
    | none => clash? version ((id, version) :: taken) rest

def takenIds (r : Registry) : List (String × Version) :=
  r.migrations.flatMap fun m => m.stageIds.map (·, m.version)

/-- Add a migration. Versions and stages are registered once. -/
def register (r : Registry) (draft : Option Draft) : Except Fault Registry :=
  match draft with
  | none => .error (.plain "register: nil migration")
  | some draft =>
    match draft.check with
    | .error e => .error (.within "register" e)
    | .ok m =>
      if r.migrations.any (·.version = m.version) then
        .error (.plain (.concat ["register: migration ", m.version.toText, " already registered"]))
      else match clash? m.version r.takenIds m.stageIds with
        | some (id, owner) =>
          .error (.plain (.concat
            ["register: stage ", Text.quote id, " already registered by ", owner.toText]))
        | none => .ok ⟨insertSorted m r.migrations⟩

/-- The migration to a version. -/
def get? (r : Registry) (version : String) : Option Migration :=
  match Version.ofString version with
  | .ok v => r.migrations.find? (·.version = v)
  | .error _ => none

def latest? (r : Registry) : Option Version := r.migrations.getLast?.map (·.version)

/-- The migrations that bring a project from one version to another: those after the first and
up to the second, which is the latest one unless given. -/
def select (r : Registry) (source target : String) : Except Fault (List Migration) := do
  let source ← (Version.ofString source).mapError (.within "from")
  let target? ← if target.isEmpty then .ok r.latest?
    else ((Version.ofString target).mapError (.within "to")).map some
  match target? with
  | none => .ok []
  | some target =>
    if source.compare target = .gt then
      .error (.filed .invalidVersion (.plain (.concat
        ["from ", source.toText, " is newer than to ", target.toText])))
    else .ok (r.migrations.filter fun m => m.version.compare source = .gt && m.version.le target)

/-- The stages of all migrations, sorted. -/
def stageIds (r : Registry) : List String :=
  (r.migrations.flatMap Migration.stageIds).mergeSort fun a b => Bytes.le a b

end Registry

end Codemod.Migration
