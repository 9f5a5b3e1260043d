import Mathlib.Data.List.Induction
import Mathlib.Data.List.Nodup
import Mathlib.Data.List.ReduceOption
import Codemod.Settings.Basic

namespace Codemod

namespace ExtensionLists

def names (lists : ExtensionLists) : List String := lists.map Prod.fst

/-- Put a list in all places of its name. -/
def replace (lists : ExtensionLists) (name : String) (list : Option (List String)) : ExtensionLists :=
  lists.map fun entry => if entry.1 = name then (name, list) else entry

theorem set_eq (lists : ExtensionLists) (name : String) (list : Option (List String)) :
    lists.set name list = if name ∈ lists.names then lists.replace name list else lists ++ [(name, list)] := by
  have hany : (lists.any fun entry => decide (entry.1 = name)) = true ↔ name ∈ lists.names := by
    simp [names]
  simp only [set, replace, hany]

variable {lists earlier later : ExtensionLists} {name other : String} {list last : Option (List String)}

theorem names_replace (lists : ExtensionLists) (name : String) (list : Option (List String)) :
    (lists.replace name list).names = lists.names := by
  unfold names replace
  rw [List.map_map]
  apply List.map_congr_left
  intro entry _
  by_cases h : entry.1 = name
  · simp [h]
  · simp [h]

theorem replace_replace (lists : ExtensionLists) (name : String) (list last : Option (List String)) :
    (lists.replace name list).replace name last = lists.replace name last := by
  unfold replace
  rw [List.map_map]
  apply List.map_congr_left
  intro entry _
  by_cases h : entry.1 = name
  · simp [h]
  · simp [h]

theorem replace_comm (h : name ≠ other) (lists : ExtensionLists) (list last : Option (List String)) :
    (lists.replace name list).replace other last = (lists.replace other last).replace name list := by
  unfold replace
  rw [List.map_map, List.map_map]
  apply List.map_congr_left
  intro entry _
  by_cases hname : entry.1 = name
  · simp [hname, h]
  · by_cases hother : entry.1 = other
    · simp [hother, Ne.symm h]
    · simp [hname, hother]

theorem replace_of_not_mem (h : name ∉ lists.names) : lists.replace name list = lists := by
  unfold replace
  have hsame : ∀ entry ∈ lists, (if entry.1 = name then (name, list) else entry) = entry := by
    intro entry hentry
    apply if_neg
    intro heq
    exact h (heq ▸ List.mem_map_of_mem hentry)
  rw [List.map_congr_left hsame, List.map_id']

theorem mem_names_set : other ∈ (lists.set name list).names ↔ other ∈ lists.names ∨ other = name := by
  rw [set_eq]
  by_cases h : name ∈ lists.names
  · rw [if_pos h, names_replace]
    constructor
    · exact Or.inl
    · rintro (hmem | rfl)
      · exact hmem
      · exact h
  · rw [if_neg h]
    simp [names]

/-- The later of two lists for one name counts. -/
theorem set_set (lists : ExtensionLists) (name : String) (list last : Option (List String)) :
    (lists.set name list).set name last = lists.set name last := by
  have hmem : name ∈ (lists.set name list).names := mem_names_set.mpr (.inr rfl)
  rw [set_eq (lists.set name list), if_pos hmem, set_eq, set_eq]
  by_cases h : name ∈ lists.names
  · rw [if_pos h, if_pos h, replace_replace]
  · rw [if_neg h, if_neg h]
    have hkept : replace lists name last = lists := replace_of_not_mem h
    unfold replace at hkept ⊢
    rw [List.map_append, hkept]
    simp

/-- Lists for two names do not depend on their order, if one of the names has its place already. -/
theorem set_comm (h : name ≠ other) (hmem : name ∈ lists.names) :
    (lists.set name list).set other last = (lists.set other last).set name list := by
  have hmem' : name ∈ (lists.set other last).names := mem_names_set.mpr (.inl hmem)
  rw [set_eq (lists.set other last), if_pos hmem', set_eq lists name, if_pos hmem, set_eq, set_eq, names_replace]
  by_cases hother : other ∈ lists.names
  · rw [if_pos hother, if_pos hother, replace_comm h]
  · rw [if_neg hother, if_neg hother]
    simp [replace, Ne.symm h]

theorem merge_nil (lists : ExtensionLists) : lists.merge [] = lists := rfl

theorem merge_cons (earlier : ExtensionLists) (entry : String × Option (List String)) (later : ExtensionLists) :
    earlier.merge (entry :: later) = (earlier.set entry.1 entry.2).merge later := rfl

theorem merge_append (earlier later more : ExtensionLists) :
    earlier.merge (later ++ more) = (earlier.merge later).merge more := List.foldl_append

theorem set_merge_replace (hmem : name ∈ earlier.names) :
    (earlier.set name list).merge (later.replace name list) = (earlier.merge later).set name list := by
  induction later generalizing earlier with
  | nil => rfl
  | cons entry rest ih =>
    obtain ⟨other, last⟩ := entry
    have hnext : name ∈ (earlier.set other last).names := mem_names_set.mpr (.inl hmem)
    rw [merge_cons, ← ih hnext]
    by_cases h : name = other
    · subst h
      have hhead : replace ((name, last) :: rest) name list = (name, list) :: replace rest name list := by
        simp [replace]
      rw [hhead, merge_cons, set_set, set_set]
    · have hhead : replace ((other, last) :: rest) name list = (other, last) :: replace rest name list := by
        simp [replace, Ne.symm h]
      rw [hhead, merge_cons, set_comm h hmem]

/-- A list that is set in the later lists is set in the end. -/
theorem merge_set (earlier later : ExtensionLists) (name : String) (list : Option (List String)) :
    earlier.merge (later.set name list) = (earlier.merge later).set name list := by
  rw [set_eq]
  by_cases h : name ∈ later.names
  · rw [if_pos h]
    induction later generalizing earlier with
    | nil => exact absurd h List.not_mem_nil
    | cons entry rest ih =>
      obtain ⟨other, last⟩ := entry
      by_cases hother : name = other
      · subst hother
        have hhead : replace ((name, last) :: rest) name list = (name, list) :: replace rest name list := by
          simp [replace]
        have hmem : name ∈ (earlier.set name last).names := mem_names_set.mpr (.inr rfl)
        rw [hhead, merge_cons, merge_cons, ← set_merge_replace hmem, set_set]
      · have hhead : replace ((other, last) :: rest) name list = (other, last) :: replace rest name list := by
          simp [replace, Ne.symm hother]
        have hrest : name ∈ names rest := by simpa [names, hother] using h
        rw [hhead, merge_cons, merge_cons]
        exact ih (earlier.set other last) hrest
  · rw [if_neg h, merge_append]
    rfl

theorem merge_assoc (a b c : ExtensionLists) : (a.merge b).merge c = a.merge (b.merge c) := by
  induction c generalizing b with
  | nil => rfl
  | cons entry rest ih =>
    rw [merge_cons, merge_cons, ← ih, merge_set]

/-- Lists for new names are put behind. -/
theorem merge_of_fresh (hlater : later.names.Nodup) (hfresh : ∀ name ∈ later.names, name ∉ earlier.names) :
    earlier.merge later = earlier ++ later := by
  induction later generalizing earlier with
  | nil => simp [merge_nil]
  | cons entry rest ih =>
    obtain ⟨name, list⟩ := entry
    obtain ⟨hnot, hrest⟩ := List.nodup_cons.mp hlater
    have hname : name ∉ earlier.names := hfresh name (List.mem_cons_self ..)
    rw [merge_cons, set_eq, if_neg hname, ih hrest]
    · simp
    · intro other hother
      have hne : other ≠ name := fun heq => hnot (heq ▸ hother)
      have hold : other ∉ earlier.names := hfresh other (List.mem_cons_of_mem _ hother)
      unfold names at hold ⊢
      simp [hold, hne]

theorem nil_merge (h : lists.names.Nodup) : merge [] lists = lists :=
  merge_of_fresh h fun _ _ => List.not_mem_nil

theorem names_set_nodup (h : lists.names.Nodup) (name : String) (list : Option (List String)) :
    (lists.set name list).names.Nodup := by
  rw [set_eq]
  by_cases hmem : name ∈ lists.names
  · rw [if_pos hmem, names_replace]
    exact h
  · rw [if_neg hmem]
    unfold names at h hmem ⊢
    rw [List.map_append]
    apply List.nodup_append.mpr
    refine ⟨h, List.nodup_singleton _, ?_⟩
    intro other hother _ hname heq
    rw [heq, List.mem_singleton.mp hname] at hother
    exact hmem hother

theorem names_merge_nodup (h : earlier.names.Nodup) (later : ExtensionLists) : (earlier.merge later).names.Nodup := by
  induction later generalizing earlier with
  | nil => exact h
  | cons entry rest ih => exact ih (names_set_nodup h entry.1 entry.2)

theorem lookup_of_not_mem (h : name ∉ lists.names) : lists.lookup name = none := by
  rw [List.lookup_eq_none_iff]
  intro entry hentry
  rw [bne_iff_ne]
  intro heq
  apply h
  rw [heq]
  exact List.mem_map_of_mem hentry

theorem lookup_cons_self (name : String) (list : Option (List String)) (rest : ExtensionLists) :
    List.lookup name ((name, list) :: rest) = some list := by simp

theorem lookup_cons_other (h : name ≠ other) (list : Option (List String)) (rest : ExtensionLists) :
    List.lookup name ((other, list) :: rest) = rest.lookup name := by
  have hne : (name == other) = false := beq_false_of_ne h
  rw [List.lookup_cons, hne]

theorem lookup_replace_self (h : name ∈ lists.names) : (lists.replace name list).lookup name = some list := by
  induction lists with
  | nil => exact absurd h List.not_mem_nil
  | cons entry rest ih =>
    obtain ⟨first, value⟩ := entry
    unfold replace at ih ⊢
    by_cases hfirst : first = name
    · simp [hfirst]
    · have hrest : name ∈ names rest := by simpa [names, Ne.symm hfirst] using h
      rw [List.map_cons, if_neg hfirst, lookup_cons_other (Ne.symm hfirst)]
      exact ih hrest

theorem lookup_replace_other (h : other ≠ name) : (lists.replace name list).lookup other = lists.lookup other := by
  induction lists with
  | nil => rfl
  | cons entry rest ih =>
    obtain ⟨first, value⟩ := entry
    unfold replace at ih ⊢
    by_cases hfirst : first = name
    · rw [List.map_cons, if_pos hfirst, hfirst, lookup_cons_other h, lookup_cons_other h]
      exact ih
    · rw [List.map_cons, if_neg hfirst, List.lookup_cons, List.lookup_cons, ih]

/-- Setting a list changes what is found for its name, and for no other. -/
theorem lookup_set (lists : ExtensionLists) (name other : String) (list : Option (List String)) :
    (lists.set name list).lookup other = if other = name then some list else lists.lookup other := by
  rw [set_eq]
  by_cases hmem : name ∈ lists.names
  · rw [if_pos hmem]
    by_cases h : other = name
    · rw [if_pos h, h]
      exact lookup_replace_self hmem
    · rw [if_neg h]
      exact lookup_replace_other h
  · rw [if_neg hmem, List.lookup_append]
    by_cases h : other = name
    · rw [if_pos h, h, lookup_of_not_mem hmem]
      simp
    · rw [if_neg h, lookup_cons_other h]
      simp

/-- Name by name the later list is found. -/
theorem lookup_merge (hlater : later.names.Nodup) (earlier : ExtensionLists) (name : String) :
    (earlier.merge later).lookup name = (later.lookup name <|> earlier.lookup name) := by
  induction later generalizing earlier with
  | nil => rfl
  | cons entry rest ih =>
    obtain ⟨other, list⟩ := entry
    obtain ⟨hnot, hrest⟩ := List.nodup_cons.mp hlater
    rw [merge_cons, ih hrest, lookup_set]
    by_cases h : name = other
    · have hnone : List.lookup other rest = none := lookup_of_not_mem hnot
      rw [if_pos h, h, hnone, lookup_cons_self]
      rfl
    · rw [if_neg h, lookup_cons_other h]

end ExtensionLists

section Last

variable {α β : Type}

/-- What the last of some layers says that says anything. -/
def lastSet (field : α → Option β) (layers : List α) : Option β := (layers.filterMap field).getLast?

/-- The last text that is not empty; the empty text if there is none. -/
def lastText (field : α → String) (layers : List α) : String :=
  ((layers.map field).filter (!·.isEmpty)).getLast?.getD ""

theorem lastSet_append (field : α → Option β) (layers : List α) (layer : α) :
    lastSet field (layers ++ [layer]) = laterChoice (lastSet field layers) (field layer) := by
  unfold lastSet laterChoice
  rw [List.filterMap_append]
  cases h : field layer with
  | none => simp [h]
  | some value => simp [h]

theorem lastText_append (field : α → String) (layers : List α) (layer : α) :
    lastText field (layers ++ [layer]) = laterText (lastText field layers) (field layer) := by
  unfold lastText laterText
  rw [List.map_append, List.filter_append]
  by_cases h : (field layer).isEmpty = true
  · simp [h]
  · simp [h]

end Last

namespace Settings

/-- No kind has two lists. -/
def Single (s : Settings) : Prop := ∀ lists ∈ s.extensions, lists.names.Nodup

/-- The list of extensions that is set for a name. -/
def extensionsFor (name : String) (s : Settings) : Option (Option (List String)) := s.extensions.bind (·.lookup name)

/-- Field by field, settings are what the last of some layers says that sets the field. -/
structure Combines (layers : List Settings) (s : Settings) : Prop where
  fromVersion : s.fromVersion = lastText Settings.fromVersion layers
  toVersion : s.toVersion = lastText Settings.toVersion layers
  format : s.format = lastText Settings.format layers
  backupMode : s.backupMode = lastText Settings.backupMode layers
  backupsEnabled : s.backupsEnabled = lastSet Settings.backupsEnabled layers
  ignored : s.ignored = lastSet Settings.ignored layers
  disabled : s.disabled = lastSet Settings.disabled layers
  extensions : ∀ name, s.extensionsFor name = lastSet (extensionsFor name) layers
  extended : s.extensions.isSome = layers.any (·.extensions.isSome)
  single : s.Single
  dryRun : s.dryRun = layers.any (·.dryRun)
  noBackups : s.noBackups = layers.any (·.noBackups)

theorem laterText_assoc (a b c : String) : laterText (laterText a b) c = laterText a (laterText b c) := by
  unfold laterText
  by_cases hc : c.isEmpty = true
  · simp [hc]
  · simp [hc]

theorem laterChoice_assoc {α : Type} (a b c : Option α) :
    laterChoice (laterChoice a b) c = laterChoice a (laterChoice b c) := by
  cases c with
  | none => rfl
  | some value => rfl

theorem mergeExtensions_assoc (a b c : Option ExtensionLists) :
    mergeExtensions (mergeExtensions a b) c = mergeExtensions a (mergeExtensions b c) := by
  cases a <;> cases b <;> cases c <;>
    simp only [mergeExtensions, Option.getD_some, Option.getD_none, ← ExtensionLists.merge_assoc, ExtensionLists.merge_nil]

theorem merge_assoc (a b c : Settings) : (a.merge b).merge c = a.merge (b.merge c) := by
  simp only [merge, laterText_assoc, laterChoice_assoc, mergeExtensions_assoc, Bool.or_assoc]

theorem merge_empty (s : Settings) : s.merge empty = s := by
  obtain ⟨fromVersion, toVersion, ignored, disabled, enabled, mode, extensions, dryRun, format, noBackups⟩ := s
  have hextensions : mergeExtensions extensions none = extensions := by cases extensions <;> rfl
  simp [merge, empty, laterText, laterChoice, hextensions]

theorem empty_merge {s : Settings} (h : s.Single) : empty.merge s = s := by
  obtain ⟨fromVersion, toVersion, ignored, disabled, enabled, mode, extensions, dryRun, format, noBackups⟩ := s
  have htext (text : String) : laterText "" text = text := by
    unfold laterText
    split
    · next hempty => exact (String.isEmpty_iff.mp hempty).symm
    · rfl
  have hchoice {α : Type} (choice : Option α) : laterChoice none choice = choice := by cases choice <;> rfl
  have hextensions : mergeExtensions none extensions = extensions := by
    cases extensions with
    | none => rfl
    | some lists => exact congrArg some (ExtensionLists.nil_merge (h lists rfl))
  simp [merge, empty, htext, hchoice, hextensions]

theorem extensionsFor_merge {later : Settings} (hlater : later.Single) (earlier : Settings) (name : String) :
    (earlier.merge later).extensionsFor name = laterChoice (earlier.extensionsFor name) (later.extensionsFor name) := by
  have hlookup := fun lists (hlists : later.extensions = some lists) (lists' : ExtensionLists) =>
    ExtensionLists.lookup_merge (hlater lists hlists) lists' name
  show (mergeExtensions earlier.extensions later.extensions).bind (·.lookup name) = _
  unfold extensionsFor laterChoice
  cases hl : later.extensions with
  | none => cases earlier.extensions <;> rfl
  | some lists =>
    cases he : earlier.extensions with
    | none => exact hlookup lists hl []
    | some lists' => exact hlookup lists hl lists'

theorem isSome_mergeExtensions (earlier later : Option ExtensionLists) :
    (mergeExtensions earlier later).isSome = (earlier.isSome || later.isSome) := by
  cases earlier <;> cases later <;> rfl

theorem Single.merge {earlier : Settings} (h : earlier.Single) (later : Settings) : (earlier.merge later).Single := by
  intro lists hlists
  replace hlists : mergeExtensions earlier.extensions later.extensions = some lists := hlists
  cases he : earlier.extensions with
  | none =>
    cases hl : later.extensions with
    | none =>
      rw [he, hl] at hlists
      cases hlists
    | some added =>
      rw [he, hl] at hlists
      cases hlists
      have hnone : ExtensionLists.names [] |>.Nodup := List.nodup_nil
      exact ExtensionLists.names_merge_nodup hnone added
  | some known =>
    have hmerged : lists = known.merge (later.extensions.getD []) := by
      rw [he] at hlists
      cases hl : later.extensions <;> rw [hl] at hlists <;> exact (Option.some.inj hlists).symm
    rw [hmerged]
    exact ExtensionLists.names_merge_nodup (h known he) _

namespace Combines

theorem single_layer {s : Settings} (h : s.Single) : Combines [s] s := by
  have htext (field : Settings → String) : field s = lastText field [s] := by
    unfold lastText
    by_cases hempty : (field s).isEmpty = true
    · have hnone := String.isEmpty_iff.mp hempty
      simp [hnone]
    · simp [hempty]
  have hset {α : Type} (field : Settings → Option α) : field s = lastSet field [s] := by
    unfold lastSet
    cases hfield : field s <;> simp [hfield]
  exact ⟨htext _, htext _, htext _, htext _, hset _, hset _, hset _, fun name => hset (extensionsFor name), by simp, h,
    by simp, by simp⟩

/-- One more layer on top. -/
theorem step {layers : List Settings} {s later : Settings} (h : Combines layers s) (hlater : later.Single) :
    Combines (layers ++ [later]) (s.merge later) where
  fromVersion := by rw [lastText_append, ← h.fromVersion]; rfl
  toVersion := by rw [lastText_append, ← h.toVersion]; rfl
  format := by rw [lastText_append, ← h.format]; rfl
  backupMode := by rw [lastText_append, ← h.backupMode]; rfl
  backupsEnabled := by rw [lastSet_append, ← h.backupsEnabled]; rfl
  ignored := by rw [lastSet_append, ← h.ignored]; rfl
  disabled := by rw [lastSet_append, ← h.disabled]; rfl
  extensions name := by rw [lastSet_append, ← h.extensions, extensionsFor_merge hlater]
  extended := by
    rw [List.any_append, ← h.extended, List.any_cons, List.any_nil, Bool.or_false]
    exact isSome_mergeExtensions s.extensions later.extensions
  single := h.single.merge later
  dryRun := by rw [List.any_append, ← h.dryRun]; simp [merge]
  noBackups := by rw [List.any_append, ← h.noBackups]; simp [merge]

end Combines

theorem mergeAll_append (layers : List (Option Settings)) (layer : Option Settings) :
    mergeAll (layers ++ [layer]) = merge? (mergeAll layers) layer := by
  simp [mergeAll]

/-- Layers that are there are combined, layers that are missing are passed over. -/
theorem mergeAll_combines (layers : List (Option Settings)) (hsingle : ∀ s, some s ∈ layers → s.Single) :
    (layers.reduceOption = [] ∧ mergeAll layers = none) ∨
      (layers.reduceOption ≠ [] ∧ ∃ s, mergeAll layers = some s ∧ Combines layers.reduceOption s) := by
  induction layers using List.reverseRecOn with
  | nil => exact .inl ⟨rfl, rfl⟩
  | append_singleton layers layer ih =>
    have hbefore : ∀ s, some s ∈ layers → s.Single := fun s hs => hsingle s (List.mem_append_left _ hs)
    rw [mergeAll_append, List.reduceOption_append]
    cases layer with
    | none =>
      have hsame : layers.reduceOption ++ [none].reduceOption = layers.reduceOption := List.append_nil _
      rw [hsame]
      obtain ⟨hnone, hall⟩ | ⟨hsome, s, hall, hs⟩ := ih hbefore
      · exact .inl ⟨hnone, by rw [hall]; rfl⟩
      · exact .inr ⟨hsome, s, by rw [hall]; rfl, hs⟩
    | some later =>
      have hlater : later.Single := hsingle later (List.mem_append_right _ (List.mem_singleton_self _))
      have hlast : [some later].reduceOption = [later] := rfl
      rw [hlast]
      right
      refine ⟨by simp, ?_⟩
      obtain ⟨hnone, hall⟩ | ⟨-, s, hall, hs⟩ := ih hbefore
      · rw [hall, hnone]
        exact ⟨later, rfl, .single_layer hlater⟩
      · rw [hall]
        exact ⟨s.merge later, rfl, hs.step hlater⟩

/-- Layers of settings combine in one way only, however they are grouped: the last one that sets a field
counts, and empty settings change nothing. -/
theorem layers_combine (layers : List (Option Settings)) (hsingle : ∀ s, some s ∈ layers → s.Single) :
    (∀ a b c : Settings, (a.merge b).merge c = a.merge (b.merge c)) ∧
      (∀ s : Settings, s.merge empty = s ∧ (s.Single → empty.merge s = s)) ∧
      (layers.reduceOption = [] → mergeAll layers = none) ∧
      (layers.reduceOption ≠ [] → ∃ s, mergeAll layers = some s ∧ s.Combines layers.reduceOption) := by
  refine ⟨merge_assoc, fun s => ⟨merge_empty s, empty_merge⟩, ?_, ?_⟩
  · intro hnone
    obtain ⟨-, hall⟩ | ⟨hsome, -⟩ := mergeAll_combines layers hsingle
    · exact hall
    · exact absurd hnone hsome
  · intro hsome
    obtain ⟨hnone, -⟩ | ⟨-, hall⟩ := mergeAll_combines layers hsingle
    · exact absurd hnone hsome
    · exact hall

/-- A file, a missing layer, the environment and the command line. The empty list counts as set. -/
theorem layers_combine_missing :
    let file : Settings := { empty with fromVersion := "11", disabled := some ["a"], ignored := some ["dist"]
                                        extensions := some [("template", some [".html"]), ("style", some [".css"])] }
    let environment : Settings := { empty with toVersion := "12", disabled := some [], backupsEnabled := some false
                                               extensions := some [("template", some [".tpl"])] }
    let flags : Settings := { empty with format := "json", dryRun := true }
    ∃ s, mergeAll [some file, none, some environment, some flags] = some s ∧
      s.Combines [file, environment, flags] ∧ s.disabled = some [] ∧ s.ignored = some ["dist"] ∧
      s.extensions = some [("template", some [".tpl"]), ("style", some [".css"])] := by
  intro file environment flags
  have hsingle : ∀ s, some s ∈ [some file, none, some environment, some flags] → s.Single := by
    intro s hs lists hlists
    simp only [List.mem_cons, Option.some.injEq, reduceCtorEq, false_or, List.not_mem_nil, or_false] at hs
    obtain rfl | rfl | rfl := hs
    · cases hlists
      decide
    · cases hlists
      decide
    · cases hlists
  obtain ⟨-, -, -, hall⟩ := layers_combine [some file, none, some environment, some flags] hsingle
  obtain ⟨s, hs, hcombines⟩ := hall (by decide)
  refine ⟨s, hs, hcombines, ?_⟩
  have hvalue : mergeAll [some file, none, some environment, some flags] =
      some ⟨"11", "12", some ["dist"], some [], some false, "",
        some [("template", some [".tpl"]), ("style", some [".css"])], true, "json", false⟩ := by decide
  obtain rfl := Option.some.inj (hvalue.symm.trans hs)
  exact ⟨rfl, rfl, rfl⟩

end Settings

end Codemod
