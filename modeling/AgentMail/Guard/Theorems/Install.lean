import AgentMail.Guard.Install
import AgentMail.Pattern.Theorems.Normalize

open Pattern

namespace Guard

variable {render : Str → HookName → Str} {name name' : HookName} {files files' : HookFiles}
  {user : Option HookFile}
variable {dir : HooksDir} {project : Str} {installPrepush : Bool} {e : InstallEvent}
  {es : List InstallEvent}

theorem exists_chainRunnerLines (name : HookName) : ∃ line lines,
    chainRunnerLines name = "#!/usr/bin/env python3" :: ("# " ++ chainRunnerMark name) :: line ::
      lines :=
  ⟨_, _, rfl⟩

theorem exists_renderChainRunnerScript (name : HookName) : ∃ rest, renderChainRunnerScript name =
    "#!/usr/bin/env python3\n# ".toList ++ ((chainRunnerMark name).toList ++ rest) := by
  have ⟨line, lines, h⟩ := exists_chainRunnerLines name
  have hs : "#!/usr/bin/env python3".toList ++ (['\n'] ++ "# ".toList) =
      "#!/usr/bin/env python3\n# ".toList := by decide
  rw [renderChainRunnerScript, h, List.map_cons, List.map_cons, List.map_cons,
    List.intercalate_cons_cons, List.intercalate_cons_cons, String.toList_append, ← hs]
  simp only [List.append_assoc]
  exact ⟨_, rfl⟩

-- Trimming leaves what is between other characters than whitespace.
theorem infix_trim {c d : Char} {s t u : Str} (hc : ¬isWhitespace c) (hd : ¬isWhitespace d)
    (hs : s.head? = some c) (ht : t.getLast? = some d) : t <:+: trim (s ++ (t ++ u)) := by
  have hstart : trimStart (s ++ (t ++ u)) = s ++ (t ++ u) := by
    refine trimStart_eq_self.mpr fun b hb => ?_
    rw [List.head?_append, hs, Option.some_or] at hb
    exact Option.some.inj hb ▸ hc
  have hend : trimEnd (s ++ t) = s ++ t := by
    refine trimEnd_eq_self.mpr fun b hb => ?_
    rw [List.getLast?_append, ht, Option.some_or] at hb
    exact Option.some.inj hb ▸ hd
  rw [trim_eq, hstart, ← List.append_assoc]
  by_cases hu : trimEnd u = []
  case neg => exact trimEnd_append_of_ne_nil hu ▸ ⟨s, trimEnd u, rfl⟩
  case pos =>
    have ⟨ws, hw, hws⟩ := exists_trimEnd_append u
    rw [hu, List.nil_append] at hw
    rw [hw, trimEnd_whitespace hws, hend]
    exact ⟨s, [], List.append_nil _⟩

theorem mark_infix_chainRunner :
    (chainRunnerMark name).toList <:+: trim (chainRunner name).content.read := by
  have ⟨rest, h⟩ := exists_renderChainRunnerScript name
  rw [chainRunner, Content.read, h]
  refine infix_trim (c := '#') (d := ')') (by decide) (by decide) (by decide) ?_
  cases name <;> decide

theorem shortMark_infix_mark :
    "mcp-agent-mail chain-runner".toList <:+: (chainRunnerMark name).toList := by
  cases name <;> decide

-- A hook that the guard takes neither for its own nor for one that it has left in an earlier
-- version.
structure Foreign (file : HookFile) : Prop where
  unmarked  : ¬"mcp-agent-mail chain-runner".toList <:+: trim file.content.read
  notLegacy : isLegacySingleFileGuard (trim file.content.read) = false

theorem Foreign.not_mark {file : HookFile} (h : Foreign file) :
    ¬(chainRunnerMark name).toList <:+: trim file.content.read :=
  fun hm => h.unmarked (shortMark_infix_mark.trans hm)

-- The hook that was there is in its place, or in that of the original next to the chain runner.
inductive Kept (name : HookName) (user : Option HookFile) (files : HookFiles) : Prop
  | found (hook : files.hook = user) (orig : files.orig = none)
  | installed (hook : files.hook = some (chainRunner name)) (orig : files.orig = user)

namespace Kept

theorem plugins (h : Kept name user files) (plugins : Plugins) :
    Kept name user { files with plugins } := by
  cases h
  case found hook orig     => exact .found hook orig
  case installed hook orig => exact .installed hook orig

theorem installHook (h : Kept name user files) (hu : ∀ file ∈ user, Foreign file) :
    Kept name user (installHook render project name files) := by
  refine .installed rfl ?_
  simp only [Guard.installHook, backup]
  cases h
  case installed hook orig => simp [hook, mark_infix_chainRunner, orig]
  case found hook orig     =>
    rw [hook]
    cases user
    case none      => exact orig
    case some file => simp [(hu file rfl).not_mark, orig]

theorem uninstallHook (h : Kept name user files) (hu : ∀ file ∈ user, Foreign file) :
    Kept name user (uninstallHook files) := by
  simp only [Guard.uninstallHook]
  cases h
  case installed hook orig =>
    rw [hook]
    simp only [shortMark_infix_mark.trans mark_infix_chainRunner, if_true]
    split
    case isTrue  => exact .installed rfl orig
    case isFalse => exact .found orig rfl
  case found hook orig     =>
    rw [hook]
    cases user
    case none      => exact .found rfl orig
    case some file =>
      simp only [(hu file rfl).unmarked, (hu file rfl).notLegacy, Bool.false_eq_true, if_false]
      exact .found rfl orig

theorem step (h : Kept name user (dir name)) (hu : ∀ file ∈ user, Foreign file) :
    Kept name user (dir.step render e name) := by
  cases e
  case install project installPrepush =>
    cases name
    case preCommit => exact h.installHook hu
    case prePush   =>
      simp only [HooksDir.step, installGuard]
      split
      case isTrue  => exact h.installHook hu
      case isFalse => exact h
  case uninstall => exact h.uninstallHook hu
  case addPlugin name' file plugin =>
    rw [HooksDir.step, Function.update_apply]
    split
    case isTrue hn => exact hn ▸ h.plugins _
    case isFalse   => exact h
  case removePlugin name' file =>
    rw [HooksDir.step, Function.update_apply]
    split
    case isTrue hn => exact hn ▸ h.plugins _
    case isFalse   => exact h

theorem steps (h : Kept name user (dir name)) (hu : ∀ file ∈ user, Foreign file) :
    Kept name user (dir.steps render es name) := by
  induction es generalizing dir
  case nil          => exact h
  case cons e es hi => exact hi (h.step hu)

end Kept

-- However often the guard is installed and uninstalled in between, uninstalling it brings the hook
-- back that was there, unless others depend on the chain runner.
theorem hook_uninstallGuard
    (hf : ∀ name, (dir name).orig = none ∧ ∀ file ∈ (dir name).hook, Foreign file)
    (es : List InstallEvent) (name : HookName)
    (hp : ∀ plugin ∈ (dir.steps render es name).plugins.rows, plugin.1 = pluginFileName) :
    (uninstallGuard (dir.steps render es) name).hook = (dir name).hook ∧
      (uninstallGuard (dir.steps render es) name).orig = none := by
  have ⟨horig, hu⟩ := hf name
  have h : Kept name (dir name).hook (dir.steps render es name) := .steps (.found rfl horig) hu
  have ho : hasOtherPlugins ((dir.steps render es name).plugins.delete (·.1 = pluginFileName)) =
      false := by
    rw [hasOtherPlugins, List.any_eq_false]
    intro plugin hm
    have hm := (List.mem_filter.mp hm).left
    simpa using hp plugin hm
  rw [uninstallGuard, uninstallHook]
  cases h
  case installed hook orig =>
    rw [hook]
    simp only [shortMark_infix_mark.trans mark_infix_chainRunner, if_true, ho, Bool.false_eq_true,
      if_false, orig, and_self]
  case found hook orig     =>
    rw [hook]
    cases hd : (dir name).hook
    case none      => exact ⟨rfl, orig⟩
    case some file =>
      simp only [(hu file hd).unmarked, (hu file hd).notLegacy, Bool.false_eq_true, if_false]
      exact ⟨trivial, orig⟩

-- Only the one hook is there.
def echoDir : HooksDir
  | .preCommit => ⟨some ⟨.text "echo".toList, true⟩, none, none, none, .empty⟩
  | .prePush   => ⟨none, none, none, none, .empty⟩

theorem foreign_echoDir (name : HookName) :
    (echoDir name).orig = none ∧ ∀ file ∈ (echoDir name).hook, Foreign file ∧ file.executable := by
  cases name
  case prePush   => exact ⟨rfl, nofun⟩
  case preCommit =>
    refine ⟨rfl, fun file hm => ?_⟩
    cases hm
    exact ⟨⟨by decide, by decide⟩, rfl⟩

theorem hook_uninstallGuard_echoDir :
    (uninstallGuard (echoDir.steps (fun _ _ => []) [.install [] true]) .preCommit).hook =
      some ⟨.text "echo".toList, true⟩ := by
  refine (hook_uninstallGuard (fun name => ?_) [.install [] true] .preCommit (by decide)).left
  exact ⟨(foreign_echoDir name).left, fun file hm => ((foreign_echoDir name).right file hm).left⟩

section Run

variable {exitCode : Content → Int}

theorem firstFailure_eq_zero_iff {l : List HookFile} : firstFailure exitCode l = 0 ↔
    ∀ file ∈ l, runChild exitCode file = 0 := by
  induction l
  case nil             => simp [firstFailure]
  case cons file l hi =>
    rw [firstFailure, List.forall_mem_cons, ← hi]
    split
    case isTrue h  => simp [h]
    case isFalse h => simp [h]

theorem mem_listExecs {plugins : Plugins} {file : HookFile} :
    file ∈ listExecs plugins ↔ file.executable ∧ ∃ name, (name, file) ∈ plugins.rows := by
  simp [listExecs, List.mem_insertionSort, and_comm]

-- The guard adds its checks to those of the hook that was there, and takes none of them away.
theorem runHook_eq_zero_iff
    (hf : ∀ name, (dir name).orig = none ∧ ∀ file ∈ (dir name).hook, Foreign file ∧ file.executable)
    (es : List InstallEvent) (name : HookName) :
    runHook exitCode name (dir.steps render es name) = 0 ↔ runHook exitCode name (dir name) = 0 ∧
      ((dir.steps render es name).hook = some (chainRunner name) →
        ∀ plugin ∈ (dir.steps render es name).plugins.rows,
        plugin.2.executable → exitCode plugin.2.content = 0) := by
  have ⟨horig, hu⟩ := hf name
  have h : Kept name (dir name).hook (dir.steps render es name) :=
    .steps (.found rfl horig) fun file hm => (hu file hm).left
  have hne {file : HookFile} (hm : (dir name).hook = some file) : file ≠ chainRunner name := by
    rintro rfl
    exact (hu _ hm).left.not_mark mark_infix_chainRunner
  have huser : runHook exitCode name (dir name) = 0 ↔
      ∀ file ∈ (dir name).hook, runChild exitCode file = 0 := by
    cases hd : (dir name).hook
    case none      => simp [runHook, hd]
    case some file => simp [runHook, hd, hne hd, runChild, (hu file hd).right]
  rw [huser]
  cases h
  case found hook orig     =>
    have hn : (dir name).hook ≠ some (chainRunner name) := fun hd => hne hd rfl
    rw [hook, runHook, hook]
    cases hd : (dir name).hook
    case none      => simp
    case some file => simp [hne hd, runChild, (hu file hd).right]
  case installed hook orig =>
    have he : (chainRunner name).executable = true := rfl
    simp only [runHook, hook, he, Bool.not_true, Bool.false_eq_true, if_false, if_true,
      firstFailure_eq_zero_iff, orig, true_imp_iff, List.forall_mem_append, Option.mem_toList]
    refine and_comm.trans (and_congr_right' ⟨fun h plugin hm hx => ?_, fun h file hm => ?_⟩)
    · have := h plugin.2 (mem_listExecs.mpr ⟨hx, plugin.1, hm⟩)
      rwa [runChild, if_pos hx] at this
    · have ⟨hx, file', hm⟩ := mem_listExecs.mp hm
      rw [runChild, if_pos hx]
      exact h (file', file) hm hx

theorem runHook_eq_zero_iff_echoDir :
    runHook (fun content => if content = .text "echo".toList then 7 else 0) .preCommit
      (echoDir.steps (fun _ _ => []) [.install [] true] .preCommit) ≠ 0 :=
  fun h => absurd ((runHook_eq_zero_iff foreign_echoDir [.install [] true] .preCommit).mp h).left
    (by decide +kernel)

end Run

end Guard
