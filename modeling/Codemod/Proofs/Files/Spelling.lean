import Mathlib.Data.List.Induction
import Codemod.Proofs.Files.Filled

namespace Codemod

namespace Bytes

variable {sep : UInt8}

theorem splitOn_ne_nil (sep : UInt8) (s : Bytes) : splitOn sep s ≠ [] := by
  cases s with
  | nil => exact List.cons_ne_nil _ _
  | cons c s =>
    rw [splitOn]
    split
    · exact List.cons_ne_nil _ _
    · split <;> exact List.cons_ne_nil _ _

theorem not_mem_of_mem_splitOn {s piece : Bytes} (h : piece ∈ splitOn sep s) : sep ∉ piece := by
  induction s generalizing piece with
  | nil =>
    rw [List.mem_singleton.mp h]
    exact List.not_mem_nil
  | cons c s ih =>
    rw [splitOn] at h
    by_cases hc : c = sep
    · rw [if_pos hc] at h
      obtain rfl | h := List.mem_cons.mp h
      · exact List.not_mem_nil
      · exact ih h
    · rw [if_neg hc] at h
      cases hs : splitOn sep s with
      | nil => exact absurd hs (splitOn_ne_nil sep s)
      | cons first rest =>
        rw [hs] at h ih
        obtain rfl | h := List.mem_cons.mp h
        · rw [List.mem_cons, not_or]
          exact ⟨Ne.symm hc, ih (List.mem_cons_self ..)⟩
        · exact ih (List.mem_cons_of_mem _ h)

theorem splitOn_of_not_mem {s : Bytes} (h : sep ∉ s) : splitOn sep s = [s] := by
  induction s with
  | nil => rfl
  | cons c s ih =>
    rw [List.mem_cons, not_or] at h
    rw [splitOn, if_neg (Ne.symm h.1), ih h.2]

/-- A separator parts what is before it from what is behind. -/
theorem splitOn_append (s t : Bytes) : splitOn sep (s ++ sep :: t) = splitOn sep s ++ splitOn sep t := by
  induction s with
  | nil => exact if_pos rfl
  | cons c s ih =>
    rw [List.cons_append, splitOn, splitOn, ih]
    split
    · rfl
    · cases hs : splitOn sep s with
      | nil => exact absurd hs (splitOn_ne_nil sep s)
      | cons first rest => rfl

theorem splitOn_join {pieces : List Bytes} (hne : pieces ≠ []) (h : ∀ p ∈ pieces, sep ∉ p) :
    splitOn sep (join [sep] pieces) = pieces := by
  induction pieces with
  | nil => exact absurd rfl hne
  | cons piece rest ih =>
    obtain ⟨hpiece, hrest⟩ := List.forall_mem_cons.mp h
    cases rest with
    | nil => rw [join, List.intercalate_singleton, splitOn_of_not_mem hpiece]
    | cons next rest =>
      rw [join, List.intercalate_cons_cons, List.append_assoc, List.singleton_append, splitOn_append,
        splitOn_of_not_mem hpiece]
      exact congrArg (piece :: ·) (ih (List.cons_ne_nil _ _) hrest)

theorem join_concat (sep : Bytes) {pieces : List Bytes} (h : pieces ≠ []) (last : Bytes) :
    join sep (pieces ++ [last]) = join sep pieces ++ (sep ++ last) := by
  induction pieces with
  | nil => exact absurd rfl h
  | cons piece rest ih =>
    cases rest with
    | nil => rw [join, join, List.singleton_append, List.intercalate_cons_cons, List.intercalate_singleton,
        List.intercalate_singleton, List.append_assoc]
    | cons next rest =>
      have htail := ih (List.cons_ne_nil _ _)
      rw [join, join] at htail
      rw [join, join, List.cons_append, List.cons_append, List.intercalate_cons_cons, List.intercalate_cons_cons,
        ← List.cons_append, htail]
      simp only [List.append_assoc]

end Bytes

namespace Files

/-- A name that a path can spell. -/
structure Spelled (name : Bytes) : Prop where
  nonempty : name ≠ []
  ne_dot : name ≠ bytes "."
  noSlash : slash ∉ name

theorem Spelled.plain {name : Bytes} (h : Spelled name) : name ≠ [] ∧ slash ∉ name := ⟨h.nonempty, h.noSlash⟩

namespace Spelled

variable {name more : Bytes} (h : Spelled name)

include h

theorem append (hmore : more ≠ []) (hslash : slash ∉ more) : Spelled (name ++ more) := by
  refine ⟨?_, fun hdot => ?_, ?_⟩
  · simpa using fun hname => absurd hname h.nonempty
  · have hlength := congrArg List.length hdot
    have hname := List.length_pos_iff.mpr h.nonempty
    have hsome := List.length_pos_iff.mpr hmore
    rw [List.length_append, show (bytes ".").length = 1 from rfl] at hlength
    omega
  · rw [List.mem_append, not_or]
    exact ⟨h.noSlash, hslash⟩

/-- A name with an ending is none of the detours. -/
theorem proper_append (hshort : ¬255 < (name ++ more).length) (hmore : 1 < more.length) :
    FileSystem.Proper (name ++ more) := by
  have hname := List.length_pos_iff.mpr h.nonempty
  refine ⟨hshort, fun hdot => ?_, fun hup => ?_⟩
  · have hlength := congrArg List.length hdot
    rw [List.length_append, show (bytes ".").length = 1 from rfl] at hlength
    omega
  · have hlength := congrArg List.length hup
    rw [List.length_append, show (bytes "..").length = 2 from rfl] at hlength
    omega

end Spelled

namespace Path

theorem bytes_slash : bytes "/" = [slash] := rfl

theorem mem_parts {path name : Bytes} : name ∈ parts path ↔ Spelled name ∧ name ∈ path.splitOn slash := by
  rw [parts, List.mem_filter, Bool.and_eq_true_iff, Bool.not_eq_true', bne_iff_ne, List.isEmpty_eq_false_iff]
  exact ⟨fun ⟨hmem, hne, hdot⟩ => ⟨⟨hne, hdot, Bytes.not_mem_of_mem_splitOn hmem⟩, hmem⟩,
    fun ⟨hname, hmem⟩ => ⟨hmem, hname.nonempty, hname.ne_dot⟩⟩

theorem parts_append (s t : Bytes) : parts (s ++ slash :: t) = parts s ++ parts t := by
  rw [parts, Bytes.splitOn_append, List.filter_append]
  rfl

theorem parts_name {name : Bytes} (h : Spelled name) : parts name = [name] := by
  rw [parts, Bytes.splitOn_of_not_mem h.noSlash, List.filter_eq_self]
  intro n hn
  rw [List.mem_singleton.mp hn]
  simpa using ⟨h.nonempty, h.ne_dot⟩

theorem isAbsolute_append {s : Bytes} (h : s ≠ []) (t : Bytes) : isAbsolute (s ++ t) = isAbsolute s := by
  cases s with
  | nil => exact absurd rfl h
  | cons c s => rfl

section OfParts

variable {rooted : Bool} {names : List Bytes}

theorem filter_spelled (h : ∀ n ∈ names, Spelled n) :
    names.filter (fun p => !p.isEmpty && p != bytes ".") = names := by
  rw [List.filter_eq_self]
  intro n hn
  simpa using ⟨(h n hn).nonempty, (h n hn).ne_dot⟩

theorem splitOn_join_filter (h : ∀ n ∈ names, n ≠ [] ∧ slash ∉ n) :
    ((Bytes.join "/" names).splitOn slash).filter (!·.isEmpty) = names := by
  cases names with
  | nil => rfl
  | cons name rest =>
    rw [bytes_slash, Bytes.splitOn_join (List.cons_ne_nil _ _) fun n hn => (h n hn).2, List.filter_eq_self]
    intro n hn
    simpa using (h n hn).1

theorem isAbsolute_join (h : ∀ n ∈ names, n ≠ [] ∧ slash ∉ n) : isAbsolute (Bytes.join "/" names) = false := by
  have hname {name : Bytes} (hn : name ≠ [] ∧ slash ∉ name) (t : Bytes) : isAbsolute (name ++ t) = false := by
    rw [isAbsolute_append hn.1]
    cases name with
    | nil => exact absurd rfl hn.1
    | cons c name =>
      have hc : c ≠ slash := fun hc => hn.2 (hc ▸ List.mem_cons_self ..)
      show ([slash] : Bytes).isPrefixOf (c :: name) = false
      simpa [List.isPrefixOf] using Ne.symm hc
  cases names with
  | nil => rfl
  | cons name rest =>
    have hn := h name (List.mem_cons_self ..)
    cases rest with
    | nil => simpa [Bytes.join] using hname hn []
    | cons next rest =>
      rw [Bytes.join, List.intercalate_cons_cons, List.append_assoc]
      exact hname hn _

theorem isAbsolute_ofParts (h : ∀ n ∈ names, n ≠ [] ∧ slash ∉ n) : isAbsolute (ofParts rooted names) = rooted := by
  unfold ofParts
  cases rooted with
  | true => rfl
  | false =>
    rw [if_neg Bool.false_ne_true]
    split
    · rfl
    · exact isAbsolute_join h

theorem parts_ofParts (h : ∀ n ∈ names, Spelled n) : parts (ofParts rooted names) = names := by
  have hjoin : parts (Bytes.join "/" names) = names := by
    cases names with
    | nil => rfl
    | cons name rest =>
      rw [parts, bytes_slash,
        Bytes.splitOn_join (List.cons_ne_nil _ _) fun n hn => (h n hn).noSlash, filter_spelled h]
  unfold ofParts
  cases rooted with
  | true => exact (parts_append [] _).trans hjoin
  | false =>
    rw [if_neg Bool.false_ne_true]
    split
    · next hempty => rw [List.isEmpty_iff.mp hempty]; rfl
    · exact hjoin

end OfParts

theorem step_name (rooted : Bool) (taken : List Bytes) {name : Bytes} (h : name ≠ bytes "..") :
    step rooted taken name = name :: taken := if_neg h

theorem step_up (rooted : Bool) (last : Bytes) (rest : List Bytes) : step rooted (last :: rest) (bytes "..") =
    if last = bytes ".." then bytes ".." :: last :: rest else rest := rfl

/-- Every path ends with a name, though it may be empty. -/
theorem exists_lastName (path : Bytes) :
    ∃ front last, path = front ++ last ∧ slash ∉ last ∧ (front = [] ∨ ∃ p, front = p ++ [slash]) := by
  induction path using List.reverseRecOn with
  | nil => exact ⟨[], [], rfl, List.not_mem_nil, .inl rfl⟩
  | append_singleton path c ih =>
    by_cases hc : c = slash
    · exact ⟨path ++ [c], [], (List.append_nil _).symm, List.not_mem_nil, .inr ⟨path, hc ▸ rfl⟩⟩
    · obtain ⟨front, last, rfl, hlast, hfront⟩ := ih
      refine ⟨front, last ++ [c], List.append_assoc .., ?_, hfront⟩
      rw [List.mem_append, not_or, List.mem_singleton]
      exact ⟨hlast, Ne.symm hc⟩

/-- Go along names from a place, as if nothing stood in the way. -/
def along (here : Location) (names : List Bytes) : Location :=
  names.foldl (fun here name => if name = bytes ".." then here.dropLast else here ++ [name]) here

theorem along_append (here : Location) (names more : List Bytes) :
    along here (names ++ more) = along (along here names) more := List.foldl_append

theorem along_of_not_mem (here : Location) {names : List Bytes} (h : bytes ".." ∉ names) :
    along here names = here ++ names := by
  induction names generalizing here with
  | nil => exact (List.append_nil here).symm
  | cons name rest ih =>
    rw [List.mem_cons, not_or] at h
    have hstep : along here (name :: rest) = along (here ++ [name]) rest := by
      rw [along, List.foldl_cons, if_neg (Ne.symm h.1)]
      rfl
    rw [hstep, ih _ h.2, List.append_assoc, List.singleton_append]

/-- Names without detours: first up, unless they start at the root, then down. -/
def Tidy (rooted : Bool) (names : List Bytes) : Prop :=
  ∃ k down, names = List.replicate k (bytes "..") ++ down ∧ bytes ".." ∉ down ∧ (rooted = true → k = 0)

section Clean

variable {rooted : Bool} {names : List Bytes}

theorem tidy_of_not_mem (rooted : Bool) (h : bytes ".." ∉ names) : Tidy rooted names :=
  ⟨0, names, rfl, h, fun _ => rfl⟩

/-- A step along tidy names keeps them tidy and leads where the name does. -/
theorem Tidy.step (h : Tidy rooted names) (name : Bytes) :
    Tidy rooted (Path.step rooted names.reverse name).reverse ∧
      ∀ here, (rooted = true → here = []) →
        along here (Path.step rooted names.reverse name).reverse = along here (names ++ [name]) := by
  obtain ⟨k, down, rfl, hdown, hk⟩ := h
  by_cases hname : name = bytes ".."
  · subst hname
    rcases List.eq_nil_or_concat down with rfl | ⟨down, last, rfl⟩
    · -- there is no name to undo
      cases k with
      | zero =>
        cases rooted with
        | true => exact ⟨tidy_of_not_mem _ List.not_mem_nil, fun here hhere => by rw [hhere rfl]; rfl⟩
        | false => exact ⟨⟨1, [], rfl, List.not_mem_nil, fun h => absurd h Bool.false_ne_true⟩, fun _ _ => rfl⟩
      | succ k =>
        cases rooted with
        | true => exact absurd (hk rfl) (Nat.succ_ne_zero k)
        | false =>
          have hstep : Path.step false (List.replicate (k + 1) (bytes "..") ++ []).reverse (bytes "..") =
              List.replicate (k + 2) (bytes "..") := by
            rw [List.append_nil, List.reverse_replicate, List.replicate_succ, step_up, if_pos rfl]
            rfl
          rw [hstep, List.reverse_replicate]
          refine ⟨⟨k + 2, [], (List.append_nil _).symm, List.not_mem_nil, fun h => absurd h Bool.false_ne_true⟩,
            fun here _ => ?_⟩
          rw [List.append_nil, ← List.replicate_succ']
    · rw [List.concat_eq_append] at hdown ⊢
      rw [List.mem_append, not_or, List.mem_singleton] at hdown
      have hstep : Path.step rooted (List.replicate k (bytes "..") ++ (down ++ [last])).reverse (bytes "..") =
          (List.replicate k (bytes "..") ++ down).reverse := by
        rw [← List.append_assoc, List.reverse_concat, step_up, if_neg (Ne.symm hdown.2)]
      rw [hstep, List.reverse_reverse]
      refine ⟨⟨k, down, rfl, hdown.1, hk⟩, fun here _ => ?_⟩
      rw [← List.append_assoc, List.append_assoc, along_append here _ ([last] ++ [bytes ".."])]
      simp [along, Ne.symm hdown.2]
  · have hstep : Path.step rooted (List.replicate k (bytes "..") ++ down).reverse name =
        ((List.replicate k (bytes "..") ++ down) ++ [name]).reverse := by
      rw [List.reverse_concat, step_name _ _ hname]
    rw [hstep, List.reverse_reverse]
    refine ⟨⟨k, down ++ [name], List.append_assoc .., ?_, hk⟩, fun _ _ => rfl⟩
    rw [List.mem_append, not_or, List.mem_singleton]
    exact ⟨hdown, Ne.symm hname⟩

theorem foldl_step (rooted : Bool) (names : List Bytes) :
    Tidy rooted (names.foldl (step rooted) []).reverse ∧
      ∀ here, (rooted = true → here = []) → along here (names.foldl (step rooted) []).reverse = along here names := by
  induction names using List.reverseRecOn with
  | nil => exact ⟨tidy_of_not_mem _ List.not_mem_nil, fun _ _ => rfl⟩
  | append_singleton names name ih =>
    have hstep := ih.1.step name
    rw [List.reverse_reverse] at hstep
    rw [List.foldl_append, List.foldl_cons, List.foldl_nil]
    refine ⟨hstep.1, fun here hhere => ?_⟩
    rw [hstep.2 here hhere, along_append, ih.2 here hhere, ← along_append]

/-- Tidy names are not changed by tidying. -/
theorem foldl_step_of_tidy (h : Tidy rooted names) : (names.foldl (step rooted) []).reverse = names := by
  obtain ⟨k, down, rfl, hdown, hk⟩ := h
  have hups : (List.replicate k (bytes "..")).foldl (step rooted) [] = List.replicate k (bytes "..") := by
    cases rooted with
    | true => rw [hk rfl]; rfl
    | false =>
      clear hk hdown
      induction k with
      | zero => rfl
      | succ k ih =>
        rw [List.replicate_succ', List.foldl_append, ih]
        cases k with
        | zero => rfl
        | succ k => rw [← List.replicate_succ', List.foldl_cons, List.replicate_succ]; rfl
  rw [List.foldl_append, hups]
  suffices hdowns : ∀ taken, down.foldl (step rooted) taken = down.reverse ++ taken by
    rw [hdowns, List.reverse_append, List.reverse_reverse, List.reverse_replicate]
  clear hups hk
  induction down with
  | nil => exact fun taken => rfl
  | cons name rest ih =>
    intro taken
    rw [List.mem_cons, not_or] at hdown
    rw [List.foldl_cons, step_name _ _ (Ne.symm hdown.1), ih hdown.2, List.reverse_cons, List.append_assoc]
    rfl

theorem cleanParts_tidy (path : Bytes) : Tidy (isAbsolute path) (cleanParts path) := (foldl_step _ _).1

theorem along_cleanParts (path : Bytes) {here : Location} (h : isAbsolute path = true → here = []) :
    along here (cleanParts path) = along here (parts path) := (foldl_step _ _).2 here h

theorem spelled_cleanParts {path name : Bytes} (h : name ∈ cleanParts path) : Spelled name := by
  have hsubset : ∀ (names : List Bytes) (taken : List Bytes), (∀ n ∈ taken, Spelled n) → (∀ n ∈ names, Spelled n) →
      ∀ n ∈ names.foldl (step (isAbsolute path)) taken, Spelled n := by
    intro names
    induction names with
    | nil => exact fun taken htaken _ => htaken
    | cons name rest ih =>
      intro taken htaken hnames
      obtain ⟨hname, hrest⟩ := List.forall_mem_cons.mp hnames
      refine ih _ (fun n hn => ?_) hrest
      by_cases hup : name = bytes ".."
      · subst hup
        cases taken with
        | nil =>
          have hn' : n ∈ if isAbsolute path then [] else [bytes ".."] := hn
          split at hn'
          · cases hn'
          · rwa [List.mem_singleton.mp hn']
        | cons last taken =>
          rw [step_up] at hn
          split at hn
          · obtain rfl | hn := List.mem_cons.mp hn
            · exact hname
            · exact htaken n hn
          · exact htaken n (List.mem_cons_of_mem _ hn)
      · rw [step_name _ _ hup] at hn
        obtain rfl | hn := List.mem_cons.mp hn
        · exact hname
        · exact htaken n hn
  exact hsubset (parts path) [] (fun _ h => absurd h List.not_mem_nil) (fun _ hn => (mem_parts.mp hn).1) name
    (List.mem_reverse.mp h)

end Clean

theorem join_pair {s t : Bytes} (hs : s ≠ []) (ht : t ≠ []) : join [s, t] = clean (s ++ slash :: t) := by
  have hkept : [s, t].filter (!·.isEmpty) = [s, t] := by
    rw [List.filter_eq_self]
    intro p hp
    obtain heq | hp := List.mem_cons.mp hp
    · rw [heq]
      simpa using hs
    · rw [List.mem_singleton.mp hp]
      simpa using ht
  rw [join, hkept, if_neg (by simp), Bytes.join, List.intercalate_cons_cons, List.intercalate_singleton, List.append_assoc]
  rfl

theorem cleanParts_pathOf {here : Location} (hspelled : ∀ n ∈ here, Spelled n) (hup : bytes ".." ∉ here) :
    cleanParts (FileSystem.pathOf here) = here := by
  rw [cleanParts, FileSystem.pathOf, isAbsolute_ofParts fun n hn => (hspelled n hn).plain, parts_ofParts hspelled]
  exact foldl_step_of_tidy (tidy_of_not_mem true hup)

/-- An absolute path without detours. -/
theorem clean_absolute {path : Bytes} {here : Location} (habsolute : isAbsolute path = true)
    (h : along [] (parts path) = here) : clean path = FileSystem.pathOf here := by
  obtain ⟨k, down, hparts, hdown, hk⟩ := cleanParts_tidy path
  rw [hk habsolute, List.replicate_zero, List.nil_append] at hparts
  have halong : along [] (cleanParts path) = along [] (parts path) := along_cleanParts path fun _ => rfl
  rw [h, hparts, along_of_not_mem [] hdown, List.nil_append] at halong
  rw [clean, habsolute, hparts, halong]
  rfl

/-- What a path has before its last name. -/
def front (rooted : Bool) (names : List Bytes) : Bytes :=
  if names.isEmpty then if rooted then "/" else [] else ofParts rooted names ++ "/"

theorem ofParts_concat (rooted : Bool) (names : List Bytes) (name : Bytes) :
    ofParts rooted (names ++ [name]) = front rooted names ++ name := by
  cases names with
  | nil => cases rooted <;> simp [ofParts, front, Bytes.join]
  | cons first rest =>
    rw [front, if_neg (by simp), ofParts, ofParts, Bytes.join_concat _ (List.cons_ne_nil _ _)]
    cases rooted <;> simp

theorem front_cases (rooted : Bool) (names : List Bytes) : front rooted names = [] ∨ ∃ p, front rooted names = p ++ [slash] := by
  unfold front
  split
  · cases rooted
    · exact .inl rfl
    · exact .inr ⟨[], rfl⟩
  · exact .inr ⟨ofParts rooted names, rfl⟩

section Last

variable {rooted : Bool} {names : List Bytes} {name : Bytes}

/-- The way back to the last slash. -/
theorem span_front (h : Spelled name) :
    (front rooted names ++ name).reverse.takeWhile (· ≠ slash) = name.reverse ∧
      (front rooted names ++ name).reverse.dropWhile (· ≠ slash) = (front rooted names).reverse := by
  have hname : ∀ c ∈ name.reverse, decide (c ≠ slash) = true := by
    intro c hc
    rw [decide_eq_true_eq]
    rintro rfl
    exact h.noSlash (List.mem_reverse.mp hc)
  rw [List.reverse_append, List.takeWhile_append_of_pos hname, List.dropWhile_append_of_pos hname]
  obtain hempty | ⟨p, hp⟩ := front_cases rooted names
  · rw [hempty]
    exact ⟨List.append_nil _, rfl⟩
  · rw [hp, List.reverse_append]
    exact ⟨by simp, by simp⟩

theorem base_ofParts (h : Spelled name) : base (ofParts rooted (names ++ [name])) = name := by
  obtain ⟨rest, last, rfl⟩ : ∃ rest last, name = rest ++ [last] := by
    obtain hnil | ⟨rest, last, hlast⟩ := List.eq_nil_or_concat name
    · exact absurd hnil h.nonempty
    · exact ⟨rest, last, hlast.trans (List.concat_eq_append ..)⟩
  have hlast : last ≠ slash := fun heq => h.noSlash (heq ▸ List.mem_append_right _ (List.mem_singleton_self _))
  have htrim : (front rooted names ++ (rest ++ [last])).reverse.dropWhile (· = slash) =
      (front rooted names ++ (rest ++ [last])).reverse := by
    rw [← List.append_assoc, List.reverse_concat, List.dropWhile_cons_of_neg (by simpa using hlast)]
  rw [ofParts_concat, base, if_neg (by simp)]
  dsimp only
  rw [htrim, if_neg (by simp), (span_front h).1, List.reverse_reverse]

theorem dir_ofParts (htidy : Tidy rooted names) (hnames : ∀ n ∈ names, Spelled n) (h : Spelled name) :
    dir (ofParts rooted (names ++ [name])) = ofParts rooted names := by
  rw [ofParts_concat, dir, (span_front h).2, List.reverse_reverse, front]
  cases names with
  | nil => cases rooted <;> rfl
  | cons first rest =>
    rw [if_neg (by simp)]
    have hparts : parts (ofParts rooted (first :: rest) ++ bytes "/") = first :: rest := by
      rw [bytes_slash, parts_append, parts_ofParts hnames]
      exact List.append_nil _
    have hne : ofParts rooted (first :: rest) ≠ [] := by
      intro hnil
      have hnone : parts (ofParts rooted (first :: rest)) = first :: rest := parts_ofParts hnames
      rw [hnil] at hnone
      cases hnone
    rw [clean, cleanParts, isAbsolute_append hne, isAbsolute_ofParts fun n hn => (hnames n hn).plain, hparts, foldl_step_of_tidy htidy]

end Last

/-- The names of a path that ends with a name are the ones it is made of. -/
theorem pathNames_ofParts {rooted : Bool} {names : List Bytes} {name : Bytes}
    (h : ∀ n ∈ names ++ [name], n ≠ [] ∧ slash ∉ n) :
    FileSystem.pathNames (ofParts rooted (names ++ [name])) = names ++ [name] := by
  have hname := h name (List.mem_append_right _ (List.mem_singleton_self _))
  have hend : (ofParts rooted (names ++ [name])).endsWith "/" = false := by
    rw [Bool.eq_false_iff, ne_eq, Bytes.endsWith, List.isSuffixOf_iff_suffix, ofParts_concat]
    intro hsuffix
    have hslash : slash ∈ name := by
      obtain hnil | ⟨rest, last, hlast⟩ := List.eq_nil_or_concat name
      · exact absurd hnil hname.1
      · rw [hlast, List.concat_eq_append, ← List.append_assoc] at hsuffix
        obtain ⟨before, hbefore⟩ := hsuffix
        have heq : [slash] = [last] := (List.append_inj' hbefore rfl).2
        rw [hlast, List.concat_eq_append, ← heq]
        exact List.mem_append_right _ (List.mem_singleton_self _)
    exact hname.2 hslash
  have hsplit : ((ofParts rooted (names ++ [name])).splitOn slash).filter (!·.isEmpty) = names ++ [name] := by
    cases rooted with
    | true =>
      rw [ofParts, if_pos rfl, bytes_slash, List.singleton_append]
      exact splitOn_join_filter h
    | false =>
      rw [ofParts, if_neg Bool.false_ne_true, if_neg (by simp)]
      exact splitOn_join_filter h
  rw [FileSystem.pathNames, hend, hsplit, if_neg Bool.false_ne_true, List.append_nil]

/-- A path spells the way from a place up and then down to a directory, and a name there. -/
def Points (start : Location) (path : Bytes) (up : Location) (name : Bytes) : Prop :=
  ∃ rooted names, path = ofParts rooted (names ++ [name]) ∧ Tidy rooted names ∧ (∀ n ∈ names ++ [name], Spelled n) ∧
    along (if rooted then [] else start) names = up

theorem points_pathOf (start : Location) {up : Location} {name : Bytes} (h : ∀ n ∈ up ++ [name], Spelled n)
    (hup : bytes ".." ∉ up) : Points start (FileSystem.pathOf (up ++ [name])) up name :=
  ⟨true, up, rfl, tidy_of_not_mem _ hup, h, along_of_not_mem [] hup⟩

theorem join_name {path name : Bytes} (hpath : path ≠ []) (hname : Spelled name) (hne : name ≠ bytes "..") :
    join [path, name] = ofParts (isAbsolute path) (cleanParts path ++ [name]) := by
  have hjoin : join [path, name] = clean (path ++ slash :: name) := join_pair hpath hname.nonempty
  have hparts : cleanParts (path ++ slash :: name) = cleanParts path ++ [name] := by
    rw [cleanParts, cleanParts, isAbsolute_append hpath, parts_append, parts_name hname, List.foldl_append,
      List.foldl_cons, List.foldl_nil, step_name _ _ hne, List.reverse_cons]
  rw [hjoin, clean, isAbsolute_append hpath, hparts]

/-- A further name below a path. -/
theorem points_join {start up : Location} {path name : Bytes} (hpath : path ≠ []) (hname : Spelled name)
    (hne : name ≠ bytes "..") (h : along (if isAbsolute path then [] else start) (parts path) = up) :
    Points start (join [path, name]) up name := by
  refine ⟨isAbsolute path, cleanParts path, join_name hpath hname hne, cleanParts_tidy path, fun n hn => ?_, ?_⟩
  · obtain hn | hn := List.mem_append.mp hn
    · exact spelled_cleanParts hn
    · rwa [List.mem_singleton.mp hn]
  · rw [← h, along_cleanParts]
    intro habs
    rw [habs]
    rfl

namespace Points

variable {start up : Location} {path name : Bytes}

theorem spelled (h : Points start path up name) : Spelled name := by
  obtain ⟨_, _, _, _, hspelled, _⟩ := h
  exact hspelled name (List.mem_append_right _ (List.mem_singleton_self _))

theorem unique (h : Points start path up name) {up' : Location} {name' : Bytes} (h' : Points start path up' name') :
    up' = up ∧ name' = name := by
  obtain ⟨rooted, names, hpath, -, hspelled, hup⟩ := h
  obtain ⟨rooted', names', hpath', -, hspelled', hup'⟩ := h'
  have hparts : names' ++ [name'] = names ++ [name] := by
    rw [← parts_ofParts hspelled', ← hpath', hpath, parts_ofParts hspelled]
  have hrooted : rooted' = rooted := by
    have habsolute : isAbsolute path = rooted := hpath ▸ isAbsolute_ofParts fun n hn => (hspelled n hn).plain
    have habsolute' : isAbsolute path = rooted' := hpath' ▸ isAbsolute_ofParts fun n hn => (hspelled' n hn).plain
    exact habsolute'.symm.trans habsolute
  obtain ⟨hnames, hname⟩ := List.append_inj' hparts rfl
  rw [← hup, ← hup', hnames, hrooted]
  exact ⟨rfl, List.singleton_inj.mp hname⟩

theorem along_parts (h : Points start path up name) (hname : name ≠ bytes "..") :
    path ≠ [] ∧ along (if isAbsolute path then [] else start) (parts path) = up ++ [name] := by
  obtain ⟨rooted, names, rfl, -, hspelled, rfl⟩ := h
  constructor
  · rw [ofParts_concat]
    simpa using fun _ => (hspelled name (List.mem_append_right _ (List.mem_singleton_self _))).nonempty
  · rw [isAbsolute_ofParts fun n hn => (hspelled n hn).plain, parts_ofParts hspelled, along_append, along_of_not_mem]
    simpa using Ne.symm hname

/-- Another name in the same directory. -/
theorem renamed (h : Points start path up name) {other : Bytes} (hother : Spelled other) :
    ∃ front, path = front ++ name ∧ Points start (front ++ other) up other := by
  obtain ⟨rooted, names, rfl, htidy, hspelled, hup⟩ := h
  refine ⟨front rooted names, ofParts_concat .., rooted, names, (ofParts_concat ..).symm, htidy, fun n hn => ?_, hup⟩
  obtain hn | hn := List.mem_append.mp hn
  · exact hspelled n (List.mem_append_left _ hn)
  · rwa [List.mem_singleton.mp hn]

theorem append (h : Points start path up name) {more : Bytes} (hmore : Spelled (name ++ more)) :
    Points start (path ++ more) up (name ++ more) := by
  obtain ⟨front, rfl, hpoints⟩ := h.renamed hmore
  rwa [List.append_assoc]

theorem of_append {more : Bytes} (h : Points start (path ++ more) up (name ++ more)) (hname : Spelled name) :
    Points start path up name := by
  obtain ⟨front, hpath, hpoints⟩ := h.renamed hname
  rw [← List.append_assoc] at hpath
  rwa [List.append_cancel_right hpath]

end Points

end Path

end Files

end Codemod
