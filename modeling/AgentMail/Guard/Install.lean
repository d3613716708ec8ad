import AgentMail.Lib.Table
import AgentMail.Pattern.Basic
import Mathlib.Data.Char
import Mathlib.Data.List.Infix
import Mathlib.Data.List.Lex
import Mathlib.Data.List.Sort

open Pattern

namespace Guard

inductive HookName
  | preCommit
  | prePush
  deriving DecidableEq

def HookName.text : HookName → String
  | preCommit => "pre-commit"
  | prePush   => "pre-push"

-- A file may hold something other than a text.
inductive Content
  | text (s : Str)
  | other (bytes : List UInt8)
  deriving DecidableEq

-- `read_to_string(path).unwrap_or_default()`
def Content.read : Content → Str
  | text s  => s
  | other _ => []

structure HookFile where
  content    : Content
  executable : Bool
  deriving DecidableEq

abbrev Plugins : Type :=
  Table (Prod.fst : Str × HookFile → Str)

-- The files of a hook: `<name>`, `<name>.orig`, `<name>.cmd`, `<name>.ps1` and those in
-- `hooks.d/<name>`.
structure HookFiles where
  hook    : Option HookFile
  orig    : Option HookFile
  cmd     : Option HookFile
  ps1     : Option HookFile
  plugins : Plugins

abbrev HooksDir : Type :=
  HookName → HookFiles

def pluginFileName : Str := "50-agent-mail.py".toList

def isLegacySingleFileGuard (contents : Str) : Bool :=
  "mcp-agent-mail guard hook".toList <:+: contents ||
    "AGENT_NAME environment variable is required.".toList <:+: contents

section Render

variable (name : HookName)

def chainRunnerMark : String :=
  "mcp-agent-mail chain-runner (" ++ name.text ++ ")"

-- The hook reads what `git` passes to it on `pre-push`, and passes it on.
def stdinArgument : HookName → String
  | .preCommit => ""
  | .prePush   => ", stdin_bytes=stdin_bytes"

def chainRunnerLines : List String :=
  [ "#!/usr/bin/env python3",
    "# " ++ chainRunnerMark name,
    "import os",
    "import sys",
    "import stat",
    "import subprocess",
    "from pathlib import Path",
    "",
    "HOOK_DIR = Path(__file__).parent",
    "RUN_DIR = HOOK_DIR / 'hooks.d' / '" ++ name.text ++ "'",
    "ORIG = HOOK_DIR / '" ++ name.text ++ ".orig'",
    "",
    "def _is_exec(p: Path) -> bool:",
    "    try:",
    "        st = p.stat()",
    "        return bool(st.st_mode & (stat.S_IXUSR | stat.S_IXGRP | stat.S_IXOTH))",
    "    except Exception:",
    "        return False",
    "",
    "def _list_execs() -> list[Path]:",
    "    if not RUN_DIR.exists() or not RUN_DIR.is_dir():",
    "        return []",
    "    items = sorted([p for p in RUN_DIR.iterdir() if p.is_file()], key=lambda p: p.name)",
    "    # On POSIX, honor exec bit; on Windows, include all files (we'll dispatch .py via python).",
    "    if os.name == 'posix':",
    "        try:",
    "            items = [p for p in items if _is_exec(p)]",
    "        except Exception:",
    "            pass",
    "    return items",
    "",
    "def _run_child(path: Path, * , stdin_bytes=None):",
    "    # On Windows, prefer 'python' for .py plugins to avoid PATHEXT reliance.",
    "    if os.name != 'posix' and path.suffix.lower() == '.py':",
    "        return subprocess.run([sys.executable, str(path)], input=stdin_bytes, check=False).returncode",
    "    return subprocess.run([str(path)], input=stdin_bytes, check=False).returncode",
    "" ] ++
  (if name = .prePush then
    [ "# Read STDIN once (Git passes ref tuples); forward to children",
      "stdin_bytes = sys.stdin.buffer.read()" ]
  else []) ++
  [ "for exe in _list_execs():",
    "    rc = _run_child(exe" ++ stdinArgument name ++ ")",
    "    if rc != 0:",
    "        sys.exit(rc)",
    "",
    "if ORIG.exists():",
    "    rc = _run_child(ORIG" ++ stdinArgument name ++ ")",
    "    if rc != 0:",
    "        sys.exit(rc)",
    "sys.exit(0)" ]

def renderChainRunnerScript : Str :=
  ['\n'].intercalate ((chainRunnerLines name).map (·.toList)) ++ ['\n']

-- The scripts that start the chain runner on Windows.
def cmdShim : Str :=
  ("@echo off\r\nsetlocal\r\nset \"DIR=%~dp0\"\r\npython \"%DIR%" ++ name.text ++
    "\" %*\r\nexit /b %ERRORLEVEL%\r\n").toList

def ps1Shim : Str :=
  ("$ErrorActionPreference = 'Stop'\n$hook = Join-Path $PSScriptRoot '" ++ name.text ++
    "'\npython $hook @args\nexit $LASTEXITCODE\n").toList

def chainRunner : HookFile :=
  ⟨.text (renderChainRunnerScript name), true⟩

end Render

-- `render_guard_plugin_script`
variable (renderGuardPluginScript : Str → HookName → Str)

-- A hook that is not ours is moved away, unless another one is there.
def backup (name : HookName) (files : HookFiles) : HookFiles :=
  match files.hook with
  | none      => files
  | some hook =>
    if ¬(chainRunnerMark name).toList <:+: trim hook.content.read ∧ files.orig = none then
      { files with hook := none, orig := some hook }
    else
      files

def installHook (project : Str) (name : HookName) (files : HookFiles) : HookFiles :=
  let files := backup name files
  { files with
    hook    := some (chainRunner name)
    cmd     := some (files.cmd.getD ⟨.text (cmdShim name), false⟩)
    ps1     := some (files.ps1.getD ⟨.text (ps1Shim name), false⟩)
    plugins :=
      files.plugins.put (pluginFileName, ⟨.text (renderGuardPluginScript project name), true⟩) }

def installGuard (project : Str) (installPrepush : Bool) (dir : HooksDir) : HooksDir
  | .preCommit => installHook renderGuardPluginScript project .preCommit (dir .preCommit)
  | .prePush   => if installPrepush then
    installHook renderGuardPluginScript project .prePush (dir .prePush) else dir .prePush

def hasOtherPlugins (plugins : Plugins) : Bool :=
  plugins.rows.any (·.1 ≠ pluginFileName)

def uninstallHook (files : HookFiles) : HookFiles :=
  let files := { files with plugins := files.plugins.delete (·.1 = pluginFileName) }
  match files.hook with
  | none      => files
  | some hook =>
    let content := trim hook.content.read
    if "mcp-agent-mail chain-runner".toList <:+: content then
      if hasOtherPlugins files.plugins then files
      else { files with hook := files.orig, orig := none, cmd := none, ps1 := none }
    else if isLegacySingleFileGuard content then
      { files with hook := none, cmd := none, ps1 := none }
    else
      files

def uninstallGuard (dir : HooksDir) : HooksDir :=
  fun name => uninstallHook (dir name)

-- Others put plugins in `hooks.d` and take them away.
inductive InstallEvent
  | install (project : Str) (installPrepush : Bool)
  | uninstall
  | addPlugin (name : HookName) (file : Str) (plugin : HookFile)
  | removePlugin (name : HookName) (file : Str)

def HooksDir.step (dir : HooksDir) : InstallEvent → HooksDir
  | .install project installPrepush =>
    installGuard renderGuardPluginScript project installPrepush dir
  | .uninstall                      => uninstallGuard dir
  | .addPlugin name file plugin     =>
    Function.update dir name { dir name with plugins := (dir name).plugins.put (file, plugin) }
  | .removePlugin name file         =>
    Function.update dir name { dir name with plugins := (dir name).plugins.delete (·.1 = file) }

def HooksDir.steps (dir : HooksDir) (es : List InstallEvent) : HooksDir :=
  es.foldl (HooksDir.step renderGuardPluginScript) dir

section Run

-- The code with which a program exits.
variable (exitCode : Content → Int)

-- What cannot be executed fails.
def runChild (file : HookFile) : Int :=
  if file.executable then exitCode file.content else 1

def firstFailure : List HookFile → Int
  | []            => 0
  | file :: files => if runChild exitCode file = 0 then firstFailure files
    else runChild exitCode file

def listExecs (plugins : Plugins) : List HookFile :=
  ((plugins.rows.insertionSort (·.1 ≤ ·.1)).map Prod.snd).filter (·.executable)

-- What `git` makes of a hook, where the chain runner does what its script says.
def runHook (name : HookName) (files : HookFiles) : Int :=
  match files.hook with
  | none      => 0
  | some hook =>
    if !hook.executable then 0
    else if hook = chainRunner name then
      firstFailure exitCode (listExecs files.plugins ++ files.orig.toList)
    else exitCode hook.content

end Run

end Guard
