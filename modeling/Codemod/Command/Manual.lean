import Codemod.Command.Flag

namespace Codemod.Command

private def lines (parts : List String) : String := String.intercalate "\n" parts

/-- The flags of every command. -/
def globalFlags : List Flag :=
  [⟨"color", none, .text "auto", "colorize output: auto, always, never"⟩,
    ⟨"config", none, .text "", "path to config file"⟩,
    ⟨"debug", none, .switch, "enable debug logging"⟩]

/-- The flags of a command beside those of every command and the one for help. -/
def ownFlags : Command → List Flag
  | update =>
    [⟨"from", none, .text "", "version the project is on (default: read from package.json)"⟩,
      ⟨"to", none, .text "", "version to migrate to (default: latest)"⟩,
      ⟨"dry-run", none, .switch, "show the changes without writing them"⟩,
      ⟨"no-backups", none, .switch, "do not back up rewritten files"⟩,
      ⟨"format", none, .text "text", "output format: text, json, diff, summary"⟩,
      ⟨"ignore", none, .list, "glob patterns to ignore"⟩,
      ⟨"disable", none, .list, "stage IDs to skip"⟩,
      ⟨"compact", none, .switch, "use compact output format"⟩]
  | migrations => [⟨"format", none, .text "text", "output format: text, json"⟩]
  | restore =>
    [⟨"yes", some 'y', .switch, "restore without asking for confirmation"⟩,
      ⟨"dry-run", none, .switch, "list the files that would be restored"⟩]
  | init =>
    [⟨"force", some 'f', .switch, "Overwrite existing configuration file"⟩,
      ⟨"output", some 'o', .text ".ngmigrate.yml", "Output file path"⟩]
  | script _ => [⟨"no-descriptions", none, .switch, "disable completion descriptions"⟩]
  | _ => []

def helpFlag (c : Command) : Flag := ⟨"help", some 'h', .switch, "help for " ++ c.name⟩

/-- The flags that tell words apart before the command is known to run. -/
def knownFlags (c : Command) : List Flag := c.ownFlags ++ globalFlags

def allFlags (c : Command) : List Flag := c.helpFlag :: c.knownFlags

/-- How to load the completions of a shell. -/
def scriptManual : Shell → String
  | .bash => lines
    ["Generate the autocompletion script for the bash shell.",
      "",
      "This script depends on the 'bash-completion' package.",
      "If it is not installed already, you can install it via your OS's package manager.",
      "",
      "To load completions in your current shell session:",
      "",
      "\tsource <(ngmigrate completion bash)",
      "",
      "To load completions for every new session, execute once:",
      "",
      "#### Linux:",
      "",
      "\tngmigrate completion bash > /etc/bash_completion.d/ngmigrate",
      "",
      "#### macOS:",
      "",
      "\tngmigrate completion bash > $(brew --prefix)/etc/bash_completion.d/ngmigrate",
      "",
      "You will need to start a new shell for this setup to take effect.",
      ""]
  | .zsh => lines
    ["Generate the autocompletion script for the zsh shell.",
      "",
      "If shell completion is not already enabled in your environment you will need",
      "to enable it.  You can execute the following once:",
      "",
      "\techo \"autoload -U compinit; compinit\" >> ~/.zshrc",
      "",
      "To load completions in your current shell session:",
      "",
      "\tsource <(ngmigrate completion zsh)",
      "",
      "To load completions for every new session, execute once:",
      "",
      "#### Linux:",
      "",
      "\tngmigrate completion zsh > \"$\x7bfpath[1]\x7d/_ngmigrate\"",
      "",
      "#### macOS:",
      "",
      "\tngmigrate completion zsh > $(brew --prefix)/share/zsh/site-functions/_ngmigrate",
      "",
      "You will need to start a new shell for this setup to take effect.",
      ""]
  | .fish => lines
    ["Generate the autocompletion script for the fish shell.",
      "",
      "To load completions in your current shell session:",
      "",
      "\tngmigrate completion fish | source",
      "",
      "To load completions for every new session, execute once:",
      "",
      "\tngmigrate completion fish > ~/.config/fish/completions/ngmigrate.fish",
      "",
      "You will need to start a new shell for this setup to take effect.",
      ""]
  | .powershell => lines
    ["Generate the autocompletion script for powershell.",
      "",
      "To load completions in your current shell session:",
      "",
      "\tngmigrate completion powershell | Out-String | Invoke-Expression",
      "",
      "To load completions for every new session, add the output of the above command",
      "to your powershell profile.",
      ""]

/-- What a command does, at length. -/
def manual : Command → String
  | root => lines
    ["ngmigrate rewrites the templates, stylesheets and TypeScript sources of an",
      "Angular project so that they follow the API of a newer igniteui-angular",
      "release.",
      "",
      "Each release's migration runs as a sequence of stages. Every stage edits",
      "the files it understands in place; a file that cannot be parsed or whose",
      "edits conflict is reported and left alone while the rest of the project is",
      "migrated. Dry-run mode shows the changes as diffs, and a backup of every",
      "rewritten file is kept until it is restored or removed."]
  | update => lines
    ["Migrate the templates, stylesheets and sources of a project.",
      "",
      "The current version is read from the igniteui-angular dependency in",
      "package.json unless --from is given. Every migration after it, up to --to",
      "or the latest known release, runs in order.",
      "",
      "By default, the current directory is migrated. node_modules, dist and",
      "hidden directories are skipped.",
      "",
      "Examples:",
      "  ngmigrate update                          # Migrate the current project",
      "  ngmigrate update src/app                  # Migrate one directory",
      "  ngmigrate update --dry-run                # Show the changes as diffs",
      "  ngmigrate update --from 11.1 --to 12.0.0  # Pin the version range",
      "  ngmigrate update --disable row-type       # Skip a stage",
      "  ngmigrate update --format json            # Output as JSON for CI"]
  | migrations => lines
    ["List every built-in migration in version order, with the stages it runs.",
      "Stage IDs can be passed to \"update --disable\" or listed under \"disable\" in",
      "the configuration file."]
  | restore => lines
    ["Put back the content a previous update replaced. Every file with a",
      ".ngmigrate.bak backup below the given paths (default: the current",
      "directory) is overwritten with its backup, and the backup is removed.",
      "",
      "Examples:",
      "  ngmigrate restore               Restore the whole project, after confirming",
      "  ngmigrate restore src/app --yes Restore one directory without asking",
      "  ngmigrate restore --dry-run     List the files that would be restored"]
  | init => lines
    ["Create a new .ngmigrate.yml configuration file in the current directory.",
      "Every known migration stage is listed in a comment so that stages can be",
      "disabled by name.",
      "",
      "Examples:",
      "  ngmigrate init                     Create .ngmigrate.yml",
      "  ngmigrate init --force             Overwrite an existing file",
      "  ngmigrate init --output custom.yml Write to a custom file path"]
  | version => lines
    ["Print the version, commit hash, and build date of ngmigrate, and the",
      "latest igniteui-angular release it can migrate to."]
  | help => lines
    ["Help provides help for any command in the application.",
      "Simply type ngmigrate help [path to command] for full details."]
  | completion => lines
    ["Generate the autocompletion script for ngmigrate for the specified shell.",
      "See each sub-command's help for details on how to use the generated script.",
      ""]
  | script shell => scriptManual shell

end Codemod.Command
