namespace Codemod

/-- Shells that can complete a command line. -/
inductive Shell where
  | bash
  | fish
  | powershell
  | zsh
  deriving DecidableEq, Repr

def Shell.name : Shell → String
  | bash => "bash"
  | fish => "fish"
  | powershell => "powershell"
  | zsh => "zsh"

/-- The commands of the program; the first holds the others. -/
inductive Command where
  | root
  | update
  | migrations
  | restore
  | init
  | version
  | help
  | completion
  | script (shell : Shell)
  deriving DecidableEq, Repr

namespace Command

def name : Command → String
  | root => "ngmigrate"
  | update => "update"
  | migrations => "migrations"
  | restore => "restore"
  | init => "init"
  | version => "version"
  | help => "help"
  | completion => "completion"
  | script shell => shell.name

/-- The commands that a command holds, in the order in which they are proposed. -/
def children : Command → List Command
  | root => [update, migrations, restore, init, version, help, completion]
  | completion => [script .bash, script .zsh, script .fish, script .powershell]
  | _ => []

/-- The words that call a command. -/
def path : Command → String
  | root => root.name
  | script shell => root.name ++ " " ++ completion.name ++ " " ++ shell.name
  | command => root.name ++ " " ++ command.name

/-- The command does something by itself. -/
def isRunnable : Command → Bool
  | root => false
  | completion => false
  | _ => true

/-- What may stand behind the words of a command. -/
def operands : Command → String
  | update => " [paths...]"
  | restore => " [paths...]"
  | help => " [command]"
  | _ => ""

/-- How a command is called. -/
def useLine : Command → String
  | script shell => (script shell).path
  | command => command.path ++ command.operands ++ " [flags]"

def summary : Command → String
  | root => "Upgrade Ignite UI for Angular projects across breaking releases"
  | update => "Migrate a project to a newer igniteui-angular release"
  | migrations => "List the known migrations and their stages"
  | restore => "Restore files from the backups of a previous update"
  | init => "Initialize a new ngmigrate configuration file"
  | version => "Print version information"
  | help => "Help about any command"
  | completion => "Generate the autocompletion script for the specified shell"
  | script shell => "Generate the autocompletion script for " ++ shell.name

end Command

end Codemod
