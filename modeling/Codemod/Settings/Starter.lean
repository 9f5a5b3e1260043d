import Codemod.Migration.Registry

namespace Codemod.Settings

/-- A stage as the starter file lists it. -/
structure StageNote where
  version : String
  id : String
  description : String
  deriving DecidableEq, Repr

/-- The comment lines for stages, with a heading where the version changes. -/
def stageLines (version : String) : List StageNote → List String
  | [] => []
  | note :: rest =>
    let heading := if note.version = version then [] else ["#   " ++ note.version ++ ":"]
    heading ++ ["#   - " ++ note.id ++ "  # " ++ note.description] ++ stageLines note.version rest

/-- A settings file with comments for a project that has none. -/
def starter (stages : List StageNote) : String :=
  String.join <| List.map (· ++ "\n") <|
    ["# ngmigrate configuration",
      "# Values here are overridden by NGMIGRATE_* environment variables and flags.",
      "",
      "# Version of igniteui-angular the project uses now.",
      "# Leave empty to read it from package.json.",
      "# from: \"11.1.0\"",
      "",
      "# Version to migrate to. Leave empty for the latest known migration.",
      "# to: \"12.0.0\"",
      "",
      "# Glob patterns of files and directories to leave alone.",
      "# node_modules, dist and hidden directories are always skipped.",
      "ignore: []",
      "",
      "# Migration stages to skip.",
      "disable: []"] ++ stageLines "" stages ++
    ["",
      "# Backups of rewritten files (mode: sidecar or none).",
      "backups:",
      "  enabled: true",
      "  mode: sidecar",
      "",
      "# File extensions per kind.",
      "# extensions:",
      "#   template: [.html]",
      "#   style: [.scss, .sass, .css]",
      "#   source: [.ts]"]

end Codemod.Settings
