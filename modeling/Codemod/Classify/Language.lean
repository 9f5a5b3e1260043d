import Codemod.Text.Lower
import Codemod.Workspace.Kind

namespace Codemod.Classify

open Workspace

/-- The language of a file, as far as it decides on a kind. -/
inductive Language where
  | page
  | styleSheet
  | typeScript
  | foreign
  deriving DecidableEq, Repr

namespace Language

def isOf : Language → Kind → Bool
  | page, .template => true
  | styleSheet, .style => true
  | typeScript, .source => true
  | _, _ => false

/-- Names and short names of the languages that belong to no kind. -/
def foreignNames : List String :=
  ["1c_enterprise", "2-dimensional_array", "4d", "abap", "abap_cds", "abl", "abnf", "abuild", "acfm",
    "ackrc", "aconf", "actionscript", "actionscript3", "actionscript_3", "ad_block", "ad_block_filters",
    "ada", "ada2005", "ada95", "adb", "adblock", "adblock_filter_list", "adobe_composite_font_metrics",
    "adobe_font_metrics", "adobe_multiple_font_metrics", "advpl", "afdko", "agda", "ags", "ags_script",
    "ahk", "aidl", "aiken", "al", "algol", "alloy", "alpine_abuild", "altium", "altium_designer", "amfm",
    "ampl", "amusewiki", "angelscript", "answer_set_programming", "ant_build_system", "antlers", "antlr",
    "apache", "apacheconf", "apex", "api_blueprint", "apkbuild", "apl", "apollo_guidance_computer",
    "applescript", "arc", "arexx", "arturo", "as3", "ascii_stl", "asciidoc", "asl", "asm", "asn.1", "asp",
    "asp.net", "aspectj", "aspx", "aspx-vb", "assembly", "astro", "asymptote", "ats", "ats2", "au3",
    "augeas", "autoconf", "autohotkey", "autoit", "autoit3", "autoitscript", "avro_idl", "awk", "b3d", "b4x",
    "b_(formal_method)", "ballerina", "bash", "bash_session", "basic", "basic_for_android", "bat", "batch",
    "batchfile", "bazel", "be", "beef", "befunge", "berry", "bh", "bibtex", "bibtex_style", "bicep",
    "bikeshed", "bison", "bitbake", "blade", "blitz3d", "blitzbasic", "blitzmax", "blitzplus", "bluespec",
    "bluespec_bh", "bluespec_bsv", "bluespec_classic", "bmax", "boo", "boogie", "bplus", "bqn", "brainfuck",
    "brighterscript", "brightscript", "bro", "browserslist", "bru", "bsdmake", "bsv", "buildstream", "byond",
    "bzl", "c", "c#", "c++", "c++-objdump", "c-objdump", "c2hs", "c2hs_haskell", "c3", "cabal",
    "cabal_config", "caddy", "caddyfile", "cadence", "cairo", "cairo_zero", "cake", "cakescript", "cameligo",
    "cangjie", "cap'n_proto", "cap_cds", "carbon", "carto", "cartocss", "cds", "ceylon", "cfc", "cfm",
    "cfml", "chapel", "charity", "checksum", "checksums", "chpl", "chuck", "cil", "circom", "cirru",
    "clarion", "clarity", "classic_asp", "classic_qbasic", "classic_quickbasic", "classic_visual_basic",
    "clean", "click", "clipper", "clips", "clojure", "closure_templates", "cloud_firestore_security_rules",
    "clue", "cmake", "cobol", "coccinelle", "codeowners", "codeql", "coffee", "coffee-script",
    "coffeescript", "coldfusion", "coldfusion_cfc", "coldfusion_html", "collada", "common_lisp",
    "common_workflow_language", "component_pascal", "conll", "conll-u", "conll-x", "console",
    "containerfile", "cooklang", "cool", "coq", "cperl", "cpp", "cpp-objdump", "creole", "cron",
    "cron_table", "crontab", "crystal", "csharp", "cson", "csound", "csound-csd", "csound-orc", "csound-sco",
    "csound_document", "csound_score", "csv", "cucumber", "cuda", "cue", "cue_sheet", "curl_config",
    "curlrc", "curry", "cweb", "cwl", "cycript", "cylc", "cypher", "cython", "d", "d-objdump", "d2",
    "d2lang", "dafny", "darcs_patch", "dart", "daslang", "dataweave", "dcl", "debian_package_control_file",
    "delphi", "denizenscript", "desktop", "dhall", "diff", "digital_command_language", "dircolors",
    "directx_3d_file", "django", "dlang", "dm", "dns_zone", "dockerfile", "dogescript", "dosbatch", "dosini",
    "dot", "dotenv", "dpatch", "dtrace", "dtrace-script", "dune", "dylan", "e", "e-mail", "eagle",
    "earthfile", "earthly", "easybuild", "ebnf", "ec", "ecere_projects", "ecl", "eclipse", "ecmarkdown",
    "ecmarkup", "ecr", "edge", "edgeql", "editor-config", "editorconfig", "edje_data_collection", "edn",
    "eeschema_schematic", "eex", "eiffel", "ejs", "electronic_business_card", "elisp", "elixir", "elm",
    "elvish", "elvish_transcript", "emacs", "emacs_lisp", "emacs_muse", "email", "emberscript", "eml",
    "envrc", "eq", "erb", "erlang", "esdl", "euphoria", "f#", "f*", "factor", "fancy", "fantom", "faust",
    "fb", "fennel", "figfont", "figlet_font", "filebench_wml", "filterscript", "firrtl", "fish", "flex",
    "flix", "fluent", "flux", "formatted", "forth", "fortran", "fortran_free_form", "foxpro", "freebasic",
    "freemarker", "frege", "fsharp", "fstar", "ftl", "fundamental", "futhark", "g-code",
    "game_maker_language", "gaml", "gams", "gap", "gas", "gcc_machine_description", "gdb", "gdscript",
    "gdshader", "gedcom", "gemfile.lock", "gemini", "gemtext", "genero_4gl", "genero_per", "genie", "genshi",
    "gentoo_ebuild", "gentoo_eclass", "geojson", "gerber_image", "gettext_catalog", "gf", "gherkin",
    "git-ignore", "git_attributes", "git_commit", "git_config", "git_revision_list", "gitattributes",
    "gitconfig", "gitignore", "gitmodules", "gleam", "glimmer_js", "glimmer_ts", "glsl", "glyph",
    "glyph_bitmap_distribution_format", "gn", "gnu_asm", "gnuplot", "go", "go.mod", "go.sum", "go.work",
    "go.work.sum", "go_checksums", "go_mod", "go_module", "go_sum", "go_template", "go_work", "go_work_sum",
    "go_workspace", "godot_resource", "golang", "golo", "gosu", "gotmpl", "grace", "gradle",
    "gradle_kotlin_dsl", "grammatical_framework", "graph_modeling_language", "graphql", "graphviz", "groff",
    "groovy", "groovy_server_pages", "gsc", "gsp", "hack", "haml", "handlebars", "haproxy", "harbour",
    "hare", "hash", "hashes", "hashicorp_configuration_language", "haskell", "haxe", "hbs", "hcl", "heex",
    "help", "hip", "hiveql", "hls_playlist", "hlsl", "hocon", "holyc", "hoon", "hosts", "hosts_file",
    "html+django", "html+ecr", "html+eex", "html+erb", "html+jinja", "html+php", "html+razor", "html+ruby",
    "html+vue", "htmlbars", "htmldjango", "http", "hurl", "hxml", "hy", "hylang", "hyphy", "i7", "ical",
    "icalendar", "idl", "idris", "ignore", "ignore_list", "igor", "igor_pro", "igorpro", "ijm", "ile_rpg",
    "imagej_macro", "imba", "inc", "inform7", "inform_7", "ini", "ink", "inno_setup", "inputrc", "io",
    "ioke", "ipython_notebook", "irc", "irc_log", "irc_logs", "isabelle", "isabelle_root", "ispc", "j",
    "jai", "janet", "jar_manifest", "jasmin", "java", "java_properties", "java_server_page",
    "java_server_pages", "java_template_engine", "javascript", "javascript+erb", "jcl", "jest_snapshot",
    "jetbrains_mps", "jflex", "jinja", "jison", "jison_lex", "jolie", "jq", "jruby", "js", "json", "json5",
    "json_with_comments", "jsonc", "jsoniq", "jsonl", "jsonld", "jsonnet", "jsp", "jte", "julia",
    "julia_repl", "jupyter_notebook", "just", "justfile", "kaitai_struct", "kak", "kakounescript",
    "kakscript", "kcl", "kdl", "kerboscript", "keyvalues", "kframework", "kicad_layout",
    "kicad_legacy_layout", "kicad_schematic", "kickstart", "kit", "koka", "kolmafia_ash", "kotlin", "krl",
    "ksy", "kusto", "kvlang", "labview", "langium", "lark", "lasso", "lassoscript", "latex", "latte", "lean",
    "lean_4", "leex", "leo", "less", "less-css", "lex", "lfe", "lhaskell", "lhs", "ligolang", "lilypond",
    "limbo", "linear_programming", "linker_script", "linux_kernel_module", "liquid", "lisp", "litcoffee",
    "literate_agda", "literate_coffeescript", "literate_haskell", "live-script", "livecode_script",
    "livescript", "llvm", "logos", "logtalk", "lolcode", "lookml", "loomscript", "ls", "lsl",
    "ltspice_symbol", "lua", "luau", "m", "m2", "m3u", "m3u_playlist", "m4", "m4sugar", "m68k", "macaulay2",
    "macruby", "mail", "make", "makefile", "mako", "man", "man-page", "man_page", "manpage", "markdown",
    "marko", "markojs", "mask", "mathematica", "matlab", "maven_pom", "max", "max/msp", "maxmsp",
    "maxscript", "mbox", "mcfunction", "md", "mdoc", "mdsvex", "mdx", "mediawiki", "mercury", "mermaid",
    "mermaid_example", "meson", "metal", "mf", "microsoft_developer_studio_project",
    "microsoft_visual_studio_solution", "minid", "miniyaml", "minizinc", "minizinc_data", "mint", "mirah",
    "mirc_script", "mlir", "mma", "modelica", "modula-2", "modula-3", "module_management_system", "mojo",
    "monkey", "monkey_c", "moocode", "moonbit", "moonscript", "motoko", "motorola_68k_assembly", "move",
    "mps", "mql4", "mql5", "mtml", "muf", "mumps", "mupad", "muse", "mustache", "myghty", "nanorc", "nargo",
    "nasal", "nasl", "nasm", "ncl", "ne-on", "nearley", "nemerle", "neon", "neosnippet", "nesc", "netlinx",
    "netlinx+erb", "netlogo", "nette_object_notation", "newlisp", "nextflow", "nginx",
    "nginx_configuration_file", "nickel", "nim", "ninja", "nit", "nix", "nixos", "njk", "nl", "nmodl",
    "noir", "npm_config", "npmrc", "nroff", "nsis", "nu", "nu-script", "numpy", "nunjucks", "nush",
    "nushell", "nushell-script", "nvim", "nwscript", "oasv2", "oasv2-json", "oasv2-yaml", "oasv3",
    "oasv3-json", "oasv3-yaml", "oberon", "obj-c", "obj-c++", "obj-j", "objc", "objc++", "objdump",
    "object_data_instance_notation", "objective-c", "objective-c++", "objective-j", "objectivec",
    "objectivec++", "objectivej", "objectpascal", "objectscript", "objj", "ocaml", "octave", "odin",
    "odin-lang", "odinlang", "omgrofl", "omnet++_msg", "omnet++_ned", "omnetpp-msg", "omnetpp-ned", "ooc",
    "opa", "opal", "open_policy_agent", "openapi_specification_v2", "openapi_specification_v3", "opencl",
    "openedge", "openedge_abl", "openqasm", "openrc", "openrc_runscript", "openscad",
    "openstep_property_list", "opentype_feature_file", "option_list", "opts", "org", "osascript",
    "overpassql", "ox", "oxygene", "oz", "p4", "pact", "pan", "pandoc", "papyrus", "parrot",
    "parrot_assembly", "parrot_internal_representation", "pascal", "pasm", "pawn", "pcbnew", "pddl",
    "peg.js", "pep8", "perl", "perl-6", "perl6", "php", "pic", "pickle", "picolisp", "piglatin", "pikchr",
    "pike", "pip_requirements", "pir", "pkl", "plain_text", "plantuml", "plpgsql", "plsql", "pod", "pod_6",
    "pogoscript", "polar", "pony", "portugol", "posh", "postcss", "postscr", "postscript", "pot", "pov-ray",
    "pov-ray_sdl", "povray", "powerbuilder", "powershell", "praat", "prisma", "processing", "procfile",
    "progress", "proguard", "prolog", "promela", "propeller_spin", "proto", "protobuf",
    "protobuf_text_format", "protocol_buffer", "protocol_buffer_text_format", "protocol_buffers",
    "public_key", "pug", "puppet", "pure_data", "purebasic", "purescript", "pwsh", "pycon", "pyret", "pyrex",
    "python", "python3", "python_console", "python_traceback", "q", "q#", "qb", "qb64", "qbasic", "ql",
    "qmake", "qml", "qsharp", "qt_script", "quake", "quakec", "quickbasic", "r", "racket", "ragel",
    "ragel-rb", "ragel-ruby", "rake", "raku", "raml", "rascal", "raw", "raw_token_data", "razor", "rb",
    "rbs", "rbx", "rdoc", "readline", "readline_config", "realbasic", "reason", "reasonligo", "rebol",
    "record_jar", "red", "red/system", "redcode", "redirect_rules", "redirects", "regex", "regexp",
    "regular_expression", "ren'py", "renderscript", "renpy", "rescript", "restructuredtext", "rexx", "rez",
    "rhtml", "rich_text_format", "ring", "riot", "rmarkdown", "robotframework", "robots", "robots.txt",
    "robots_txt", "roc", "rocq", "rocq_prover", "roff", "roff_manpage", "ron", "ros_interface", "rosmsg",
    "rouge", "routeros_script", "rpc", "rpgle", "rpm_spec", "rs", "rs-274x", "rscript", "rss", "rst", "ruby",
    "runoff", "rust", "rusthon", "sage", "sail", "salt", "saltstack", "saltstate", "sarif", "sas", "scala",
    "scaml", "scenic", "scheme", "scilab", "sdc", "sed", "self", "selinux_kernel_policy_language",
    "selinux_policy", "sepolicy", "sfv", "sh", "shaderlab", "shell", "shell-script", "shellcheck_config",
    "shellcheckrc", "shellsession", "shen", "sieve", "simple_file_verification", "singularity", "slang",
    "slash", "slice", "slim", "slint", "smali", "smalltalk", "smarty", "smithy", "sml", "smpl", "smt",
    "snakefile", "snakemake", "snipmate", "snippet", "solidity", "soong", "sourcemod", "sourcepawn", "soy",
    "sparql", "specfile", "spline_font_database", "splus", "sqf", "sql", "sqlpl", "sqlrpgle", "squeak",
    "squirrel", "srecode_template", "ssh_config", "sshconfig", "sshd_config", "sshdconfig", "stan",
    "standard_ml", "star", "starlark", "stata", "stl", "stla", "ston", "stringtemplate", "stylus",
    "subrip_text", "sugarss", "sum", "sums", "supercollider", "surrealql", "survex_data", "svelte", "svg",
    "sway", "sweave", "swift", "swig", "systemverilog", "tab-seperated_values", "tact", "talon", "tcl",
    "tcsh", "tea", "teal", "templ", "terra", "terraform", "terraform_template", "tex", "texinfo", "text",
    "text_proto", "textgrid", "textile", "textmate_properties", "thrift", "ti_program", "tl", "tl-verilog",
    "tla", "tmdl", "toit", "toml", "topojson", "tor_config", "torrc", "traveling_salesman_problem",
    "travelling_salesman_problem", "tree-sitter_query", "troff", "tsp", "tsplib_data", "tsq", "tsql", "tsv",
    "tsx", "turing", "turtle", "twig", "txl", "typ", "type_language", "typespec", "typst", "udiff",
    "ultisnip", "ultisnips", "unified_parallel_c", "unity3d_asset", "unix_asm", "unix_assembly", "uno",
    "unrealscript", "untyped_plutus_core", "ur", "ur/web", "urweb", "v", "vala", "valve_data_format",
    "vb.net", "vb6", "vb_.net", "vb_6", "vba", "vbnet", "vbscript", "vcard", "vcl", "vdf", "velocity",
    "velocity_template_language", "vento", "verilog", "vhdl", "vim", "vim_help_file", "vim_script",
    "vim_snippet", "vimhelp", "viml", "vimscript", "virtual_contact_file", "visual_basic",
    "visual_basic_.net", "visual_basic_6", "visual_basic_6.0", "visual_basic_classic",
    "visual_basic_for_applications", "vlang", "volt", "vtl", "vtt", "vue", "vyper", "wasm", "wast",
    "wavefront_material", "wavefront_object", "wdl", "web_ontology_language", "webassembly",
    "webassembly_interface_type", "webidl", "webvtt", "wget_config", "wgetrc", "wgsl", "whiley", "wiki",
    "wikitext", "win32_message_file", "winbatch", "windows_registry_entries", "wisp", "wit",
    "witcher_script", "wl", "wolfram", "wolfram_lang", "wolfram_language", "wollok",
    "workflow_description_language", "world_of_warcraft_addon_data", "wren", "wrenlang", "wsdl", "x10",
    "x_bitmap", "x_font_directory_index", "x_pixmap", "xbase", "xbm", "xc", "xcompose", "xdc", "xmake",
    "xml", "xml+genshi", "xml+kid", "xml_property_list", "xojo", "xonsh", "xpages", "xpm", "xproc", "xquery",
    "xs", "xsd", "xsl", "xslt", "xten", "xtend", "yacc", "yaml", "yang", "yara", "yas", "yasnippet", "yml",
    "yul", "zap", "zeek", "zenscript", "zephir", "zig", "zil", "zimpl", "zsh"]

/-- The language with a name or a short name. Only what stands before a comma counts, capital
letters are as good as small ones, and blanks as good as underscores. -/
def ofName? (name : List Char) : Option Language :=
  let written := (name.takeWhile (· != ',')).map fun c => if c = ' ' then '_' else c
  let key := Text.lossy (Text.lower (String.ofList written))
  if ["html", "xhtml"].contains key then some page
  else if ["css", "sass", "scss"].contains key then some styleSheet
  else if ["ts", "typescript"].contains key then some typeScript
  else if foreignNames.contains key then some foreign
  else none

end Language

end Codemod.Classify
