import Codemod.Workspace.Store
import Mathlib.Data.List.Basic

namespace Codemod.Workspace

/-- What a store does at one path depends on the file there alone and reaches no other file.
Reading changes no file at all. -/
structure Store.Separable {σ β : Type} (store : Store σ) (file : Bytes → σ → β) : Prop where
  read_file : ∀ path q t, file q (store.read path t).2 = file q t
  read_eq : ∀ {path t u}, file path t = file path u → (store.read path t).1 = (store.read path u).1
  overwrite_other : ∀ {path q} content t, q ≠ path → file q (store.overwrite path content t).2 = file q t
  overwrite_eq : ∀ {path t u} content, file path t = file path u →
    (store.overwrite path content t).1 = (store.overwrite path content u).1 ∧
      file path (store.overwrite path content t).2 = file path (store.overwrite path content u).2

/-- The file after an overwrite. -/
def MemoryFile.rewritten (f : MemoryFile) (content : Bytes) : MemoryFile :=
  { f with content, writes := f.writes + 1 }

namespace Memory

theorem path_of_file? {m : Memory} {path : Bytes} {f : MemoryFile} (h : m.file? path = some f) : f.path = path := by
  simpa using List.find?_some h

theorem file?_map (m : Memory) (path : Bytes) (g : MemoryFile → MemoryFile) (hg : ∀ f, (g f).path = f.path) :
    Memory.file? (m.map g) path = (m.file? path).map g := by
  unfold Memory.file?
  rw [List.find?_map]
  congr 2
  funext f
  simp [hg f]

theorem overwrite_eq_ok {m : Memory} {path : Bytes} (content : Bytes) {f : MemoryFile} (h : m.file? path = some f) :
    ∃ m', m.overwrite path content = .ok m' ∧ m'.file? path = some (f.rewritten content) ∧
      ∀ q, q ≠ path → m'.file? q = m.file? q := by
  refine ⟨m.map fun f => if f.path = path then f.rewritten content else f, ?_, ?_, ?_⟩
  · simp only [Memory.overwrite, h]
    rfl
  · rw [file?_map _ _ _ (by intro f; split <;> rfl), h, Option.map_some, if_pos (path_of_file? h)]
  · intro q hq
    rw [file?_map _ _ _ (by intro f; split <;> rfl)]
    cases hf : m.file? q with
    | none => rfl
    | some f =>
      have hpath : f.path ≠ path := fun he => hq ((path_of_file? hf).symm.trans he)
      rw [Option.map_some, if_neg hpath]

theorem overwrite_eq_error {m : Memory} {path : Bytes} (content : Bytes) (h : m.file? path = none) :
    m.overwrite path content = .error (.within ("overwrite " ++ path) (.category .absent)) := by
  simp only [Memory.overwrite, h]

theorem separable : Memory.store.Separable fun path (m : Memory) => m.file? path where
  read_file path q m := rfl
  read_eq {path t u} h := by
    simp only [Memory.store, Memory.read, h]
  overwrite_other {path q} content m hq := by
    cases hf : m.file? path with
    | none => simp only [Memory.store, overwrite_eq_error content hf]
    | some f =>
      obtain ⟨m', hm, -, hother⟩ := overwrite_eq_ok content hf
      simp only [Memory.store, hm, hother q hq]
  overwrite_eq {path t u} content h := by
    cases hf : t.file? path with
    | none =>
      rw [hf] at h
      simp only [Memory.store, overwrite_eq_error content hf, overwrite_eq_error content h.symm, hf, ← h, and_self]
    | some f =>
      rw [hf] at h
      obtain ⟨t', ht, htf, -⟩ := overwrite_eq_ok content hf
      obtain ⟨u', hu, huf, -⟩ := overwrite_eq_ok content h.symm
      simp only [Memory.store, ht, hu, htf, huf, and_self]

end Memory

/-- Refusing some paths keeps the others apart. -/
theorem Store.Separable.refusing {σ β : Type} {store : Store σ} {file : Bytes → σ → β} (h : store.Separable file)
    (unreadable unwritable : Bytes → Option Fault) : (store.refusing unreadable unwritable).Separable file where
  read_file path q t := by
    simp only [Store.refusing]
    split
    · rfl
    · exact h.read_file path q t
  read_eq {path t u} ht := by
    simp only [Store.refusing]
    split
    · rfl
    · exact h.read_eq ht
  overwrite_other {path q} content t hq := by
    simp only [Store.refusing]
    split
    · rfl
    · exact h.overwrite_other content t hq
  overwrite_eq {path t u} content ht := by
    simp only [Store.refusing]
    split
    · exact ⟨rfl, ht⟩
    · exact h.overwrite_eq content ht

/-- A call of a store, with its answer. -/
inductive Call where
  | read (path : Bytes) (answer : Except Fault Bytes)
  | overwrite (path content : Bytes) (answer : Except Fault Unit)

namespace Call

def path : Call → Bytes
  | read path _ => path
  | overwrite path _ _ => path

end Call

namespace Store

variable {σ : Type}

/-- A store that holds a content for a path: a reading answers with it, an overwriting replaces it,
and nothing else changes it, least of all a call that fails. -/
structure Holds (store : Store σ) (content : Bytes → σ → Option Bytes) : Prop where
  read_content : ∀ path q t, content q (store.read path t).2 = content q t
  read_ok : ∀ {path t c}, (store.read path t).1 = .ok c → content path t = some c
  overwrite_other : ∀ {path q} c t, q ≠ path → content q (store.overwrite path c t).2 = content q t
  overwrite_ok : ∀ {path c t}, (store.overwrite path c t).1 = .ok () →
    content path (store.overwrite path c t).2 = some c
  overwrite_error : ∀ {path c t e}, (store.overwrite path c t).1 = .error e →
    content path (store.overwrite path c t).2 = content path t

variable {store : Store σ} {content : Bytes → σ → Option Bytes}

theorem Holds.refusing (h : store.Holds content) (unreadable unwritable : Bytes → Option Fault) :
    (store.refusing unreadable unwritable).Holds content where
  read_content path q t := by
    simp only [Store.refusing]
    split
    · rfl
    · exact h.read_content path q t
  read_ok {path t c} hread := by
    simp only [Store.refusing] at hread
    split at hread
    · cases hread
    · exact h.read_ok hread
  overwrite_other {path q} c t hq := by
    simp only [Store.refusing]
    split
    · rfl
    · exact h.overwrite_other c t hq
  overwrite_ok {path c t} hwrite := by
    simp only [Store.refusing] at hwrite ⊢
    cases hu : unwritable path with
    | some e => simp [hu] at hwrite
    | none =>
      rw [hu] at hwrite
      exact h.overwrite_ok hwrite
  overwrite_error {path c t e} hwrite := by
    simp only [Store.refusing] at hwrite ⊢
    cases hu : unwritable path with
    | some e => rfl
    | none =>
      rw [hu] at hwrite
      exact h.overwrite_error hwrite

end Store

/-- The content of a file in memory. -/
def Memory.content? (path : Bytes) (m : Memory) : Option Bytes := (m.file? path).map MemoryFile.content

theorem Memory.holds : Memory.store.Holds Memory.content? where
  read_content _ _ _ := rfl
  read_ok {path m c} h := by
    simp only [Memory.store, Memory.read] at h
    cases hf : m.file? path with
    | none => simp [hf] at h
    | some f =>
      rw [hf] at h
      rw [Memory.content?, hf, ← Except.ok.inj h]
      rfl
  overwrite_other c m hq := congrArg (Option.map MemoryFile.content) (Memory.separable.overwrite_other c m hq)
  overwrite_ok {path c m} h := by
    cases hf : m.file? path with
    | none => simp [Memory.store, overwrite_eq_error c hf] at h
    | some f =>
      obtain ⟨m', hm, hself, -⟩ := overwrite_eq_ok c hf
      simp [Memory.store, hm, Memory.content?, hself, MemoryFile.rewritten]
  overwrite_error {path c m e} h := by
    cases hf : m.file? path with
    | none => simp [Memory.store, overwrite_eq_error c hf]
    | some f =>
      obtain ⟨m', hm, -, -⟩ := overwrite_eq_ok c hf
      simp [Memory.store, hm] at h

end Codemod.Workspace
