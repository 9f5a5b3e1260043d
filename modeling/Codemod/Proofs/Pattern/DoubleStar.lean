import Codemod.Pattern.Glob
import Codemod.Proofs.Files.Spelling
import Codemod.Proofs.Text.Scalars

namespace Codemod

open Files

namespace Bytes

theorem dropHead_append (head s : Bytes) : (head ++ s).dropHead head = s := by
  have hstarts : startsWith (head ++ s) head = true := List.isPrefixOf_iff_prefix.mpr (List.prefix_append ..)
  rw [dropHead, if_pos hstarts, List.drop_left]

theorem dropTail_append (s tail : Bytes) : (s ++ tail).dropTail tail = s := by
  have hends : endsWith (s ++ tail) tail = true := List.isSuffixOf_iff_suffix.mpr (List.suffix_append ..)
  rw [dropTail, if_pos hends, List.length_append, Nat.add_sub_cancel, List.take_left]

theorem contains_singleton (s : Bytes) (b : UInt8) : s.contains [b] = decide (b ∈ s) := by
  unfold contains
  induction s with
  | nil => rfl
  | cons c s ih =>
    have hstarts : startsWith (c :: s) [b] = (b == c) := Bool.and_true _
    rw [indexOf?, hstarts]
    by_cases hc : b = c
    · simp [hc]
    · rw [if_neg (by simpa using hc), Option.isSome_map, ih]
      simp [hc]

theorem join_cons (sep piece : Bytes) {pieces : List Bytes} (h : pieces ≠ []) :
    join sep (piece :: pieces) = piece ++ (sep ++ join sep pieces) := by
  obtain ⟨next, rest, rfl⟩ := List.exists_cons_of_ne_nil h
  rw [join, join, List.intercalate_cons_cons, List.append_assoc]

theorem join_append (sep : Bytes) {front back : List Bytes} (hfront : front ≠ []) (hback : back ≠ []) :
    join sep (front ++ back) = join sep front ++ (sep ++ join sep back) := by
  induction front with
  | nil => exact absurd rfl hfront
  | cons piece front ih =>
    rw [List.cons_append, join_cons sep piece (List.append_ne_nil_of_right_ne_nil _ hback)]
    cases front with
    | nil => rw [List.nil_append, join, join, List.intercalate_singleton]
    | cons next front =>
      rw [ih (List.cons_ne_nil _ _), join_cons sep piece (List.cons_ne_nil _ _)]
      simp only [List.append_assoc]

theorem join_splitOn (sep : UInt8) (s : Bytes) : join [sep] (splitOn sep s) = s := by
  induction s with
  | nil => rfl
  | cons c s ih =>
    have hne := splitOn_ne_nil sep s
    rw [splitOn]
    split
    · next hc => rw [join_cons _ _ hne, ih, hc, List.nil_append, List.singleton_append]
    · obtain ⟨first, rest, hs⟩ := List.exists_cons_of_ne_nil hne
      rw [hs] at ih ⊢
      dsimp only
      cases rest with
      | nil =>
        rw [join, List.intercalate_singleton] at ih ⊢
        rw [ih]
      | cons next rest =>
        rw [join_cons _ _ (List.cons_ne_nil _ _)] at ih ⊢
        rw [List.cons_append, ih]

end Bytes

namespace Pattern

def GlobItem.isClass : GlobItem → Bool
  | .oneOf _ _ => true
  | _ => false

/-- No slash fits the item. -/
def GlobItem.Stays (item : GlobItem) : Prop := item = .any ∨ ∃ b, item = .literal b ∧ b ≠ slash

namespace Glob

section Reading

/-- No chunk of the pattern has a class. -/
def ClassFree (pattern : Bytes) : Prop :=
  ∀ chunks ∈ parse? pattern, ∀ chunk ∈ chunks, ∀ item ∈ chunk.items, item.isClass = false

instance (pattern : Bytes) : Decidable (ClassFree pattern) :=
  inferInstanceAs (Decidable (∀ chunks ∈ parse? pattern, ∀ chunk ∈ chunks, ∀ item ∈ chunk.items, item.isClass = false))

theorem untilStar_append (inClass : Bool) (s : Bytes) : (untilStar inClass s).1 ++ (untilStar inClass s).2 = s := by
  fun_induction untilStar inClass s with
  | case1 => rfl
  | case2 => rfl
  | case3 inClass d s head tail heq ih =>
    rw [heq] at ih
    exact congrArg (backslash :: d :: ·) ih
  | case4 => rfl
  | case5 inClass c s _ _ head tail heq ih =>
    rw [heq] at ih
    exact congrArg (c :: ·) ih

/-- A literal stands in what the items are read from. -/
theorem mem_of_literal {n : Nat} {s : Bytes} {items : List GlobItem} (h : items? n s = some items)
    (hclass : ∀ item ∈ items, item.isClass = false) {b : UInt8} (hb : .literal b ∈ items) : b ∈ s := by
  induction n generalizing s items with
  | zero =>
    cases s with
    | nil =>
      cases h
      cases hb
    | cons c s => cases h
  | succ n ih =>
    cases s with
    | nil =>
      cases h
      cases hb
    | cons c s =>
      unfold items? at h
      split at h
      · obtain ⟨⟨ranges, rest⟩, -, h⟩ := Option.bind_eq_some_iff.mp h
        obtain ⟨later, -, h⟩ := Option.bind_eq_some_iff.mp h
        cases h
        cases hclass _ (List.mem_cons_self ..)
      · have hcons {item : GlobItem} {r : Bytes} (hr : r ⊆ c :: s) (h : (items? n r).map (item :: ·) = some items)
            (hitem : item = .literal b → b ∈ c :: s) : b ∈ c :: s := by
          obtain ⟨later, hlater, rfl⟩ := Option.map_eq_some_iff.mp h
          obtain heq | hb := List.mem_cons.mp hb
          · exact hitem heq.symm
          · exact hr (ih hlater (fun x hx => hclass x (List.mem_cons_of_mem _ hx)) hb)
        split at h
        · exact hcons (List.subset_cons_self ..) h (by simp)
        · split at h
          · split at h
            · cases h
            · next d s =>
              refine hcons (fun x hx => List.mem_cons_of_mem _ (List.mem_cons_of_mem _ hx)) h fun heq => ?_
              cases heq
              simp
          · refine hcons (List.subset_cons_self ..) h fun heq => ?_
            cases heq
            exact List.mem_cons_self ..

/-- Every chunk is read from a part of the pattern. -/
theorem items_of_chunks {n : Nat} {pattern : Bytes} {chunks : List GlobChunk} (h : chunks? n pattern = some chunks) :
    ∀ chunk ∈ chunks, ∃ text, text ⊆ pattern ∧ items? text.length text = some chunk.items := by
  induction n generalizing pattern chunks with
  | zero =>
    cases pattern with
    | nil =>
      cases h
      simp
    | cons c s => cases h
  | succ n ih =>
    cases pattern with
    | nil =>
      cases h
      simp
    | cons c s =>
      rw [chunks?] at h
      swap
      · simp
      obtain ⟨items, hitems, h⟩ := Option.bind_eq_some_iff.mp h
      obtain ⟨later, hlater, h⟩ := Option.bind_eq_some_iff.mp h
      cases h
      have hpart := untilStar_append false ((c :: s).dropWhile (· = starByte))
      have hsub : (c :: s).dropWhile (· = starByte) ⊆ c :: s := (List.dropWhile_suffix _).subset
      intro chunk hchunk
      obtain rfl | hchunk := List.mem_cons.mp hchunk
      · exact ⟨_, fun x hx => hsub (hpart ▸ List.mem_append_left _ hx), hitems⟩
      · obtain ⟨text, htext, htext'⟩ := ih hlater chunk hchunk
        exact ⟨text, fun x hx => hsub (hpart ▸ List.mem_append_right _ (htext hx)), htext'⟩

/-- In a pattern without a slash and without a class, no item takes a slash. -/
theorem stays_of_parse? {pattern : Bytes} {chunks : List GlobChunk} (h : parse? pattern = some chunks)
    (hclass : ClassFree pattern) (hslash : slash ∉ pattern) : ∀ chunk ∈ chunks, ∀ item ∈ chunk.items, item.Stays := by
  intro chunk hchunk item hitem
  have hnone := hclass chunks h chunk hchunk
  obtain ⟨text, htext, hitems⟩ := items_of_chunks h chunk hchunk
  cases item with
  | literal b => exact .inr ⟨b, rfl, fun heq => hslash (heq ▸ htext (mem_of_literal hitems hnone hitem))⟩
  | any => exact .inl rfl
  | oneOf negated ranges => cases hnone _ hitem

end Reading

section Fitting

theorem slash_mem_of_matchItems {items : List GlobItem} (hstays : ∀ item ∈ items, item.Stays) {name rest : Bytes}
    (h : matchItems items name = some rest) (hslash : slash ∈ name) : slash ∈ rest := by
  induction items generalizing name with
  | nil =>
    cases h
    exact hslash
  | cons item items ih =>
    obtain ⟨hitem, hitems⟩ := List.forall_mem_cons.mp hstays
    cases name with
    | nil => cases hslash
    | cons b name =>
      obtain rfl | ⟨c, rfl, hc⟩ := hitem
      · rw [matchItems] at h
        split at h
        · cases h
        · next hb =>
          refine ih hitems h ?_
          have hname := List.mem_of_ne_of_mem (Ne.symm hb) hslash
          cases hfirst : Text.firstChar? (b :: name) with
          | none => exact hname
          | some first =>
            -- the further bytes of a character are no slashes
            have hread := Text.firstChar_of_eq hfirst
            rw [← List.take_append_drop first.2 name, List.mem_append] at hname
            refine hname.resolve_left fun htail => ?_
            cases hread.tail slash htail
      · rw [matchItems] at h
        split at h
        · next hb => exact ih hitems h (List.mem_of_ne_of_mem (hb ▸ hc.symm) hslash)
        · cases h

theorem slash_mem_of_findItems {items : List GlobItem} (hstays : ∀ item ∈ items, item.Stays) {last : Bool}
    {name rest : Bytes} (h : findItems items last name = some rest) (hslash : slash ∈ name) : slash ∈ rest := by
  induction name with
  | nil => cases h
  | cons b name ih =>
    rw [findItems] at h
    split at h
    · cases h
    · next hb =>
      have hname := List.mem_of_ne_of_mem (Ne.symm hb) hslash
      split at h
      · next left hleft =>
        split at h
        · exact ih h hname
        · cases h
          exact slash_mem_of_matchItems hstays hleft hname
      · exact ih h hname

theorem slash_not_mem_of_matchChunks {chunks : List GlobChunk} (hstays : ∀ chunk ∈ chunks, ∀ item ∈ chunk.items, item.Stays)
    {name : Bytes} (h : matchChunks chunks name = true) : slash ∉ name := by
  induction chunks generalizing name with
  | nil =>
    rw [List.isEmpty_iff.mp h]
    exact List.not_mem_nil
  | cons chunk chunks ih =>
    obtain ⟨hchunk, hchunks⟩ := List.forall_mem_cons.mp hstays
    intro hslash
    rw [matchChunks] at h
    split at h
    · rw [Bool.not_eq_true', List.any_eq_false] at h
      exact h slash hslash (by simp)
    · dsimp only at h
      -- what is left behind the chunk still has the slash
      cases hhere : (matchItems chunk.items name).filter fun left => List.isEmpty left || !chunks.isEmpty with
      | some left =>
        rw [hhere] at h
        exact ih hchunks h (slash_mem_of_matchItems hchunk (Option.filter_eq_some_iff.mp hhere).1 hslash)
      | none =>
        rw [hhere] at h
        cases hstar : chunk.star with
        | false =>
          rw [hstar] at h
          cases h
        | true =>
          rw [hstar] at h
          cases hfound : findItems chunk.items chunks.isEmpty name with
          | none =>
            rw [hfound] at h
            cases h
          | some left =>
            rw [hfound] at h
            exact ih hchunks h (slash_mem_of_findItems hchunk hfound hslash)

/-- A pattern without a slash and without a class fits only names. -/
theorem slash_not_mem_of_fits {pattern name : Bytes} (hclass : ClassFree pattern) (hslash : slash ∉ pattern)
    (h : fits pattern name = true) : slash ∉ name := by
  unfold fits at h
  split at h
  · next chunks hchunks => exact slash_not_mem_of_matchChunks (stays_of_parse? hchunks hclass hslash) h
  · cases h

theorem items_ne_nil {n : Nat} {c : UInt8} {s : Bytes} {items : List GlobItem} (h : items? n (c :: s) = some items) :
    items ≠ [] := by
  rintro rfl
  cases n with
  | zero => cases h
  | succ n =>
    have hmap (item : GlobItem) (r : Bytes) : (items? n r).map (item :: ·) ≠ some [] := by simp
    unfold items? at h
    split at h
    · obtain ⟨_, -, h⟩ := Option.bind_eq_some_iff.mp h
      obtain ⟨_, -, h⟩ := Option.bind_eq_some_iff.mp h
      cases h
    · split at h
      · exact hmap _ _ h
      · split at h
        · split at h
          · cases h
          · exact hmap _ _ h
        · exact hmap _ _ h

theorem untilStar_ne_nil {c : UInt8} (hc : c ≠ starByte) (s : Bytes) : (untilStar false (c :: s)).1 ≠ [] := by
  rw [untilStar.eq_def]
  dsimp only
  split
  · split <;> exact List.cons_ne_nil _ _
  · rw [if_neg (by simpa using hc)]
    exact List.cons_ne_nil _ _

/-- A pattern that fits nothing at all begins with a star that fits every name. -/
theorem fits_of_fits_nil {pattern name : Bytes} (hpattern : pattern ≠ []) (h : fits pattern [] = true)
    (hname : slash ∉ name) : fits pattern name = true := by
  obtain ⟨c, s, rfl⟩ := List.exists_cons_of_ne_nil hpattern
  unfold fits at h ⊢
  cases hchunks : parse? (c :: s) with
  | none =>
    rw [hchunks] at h
    cases h
  | some chunks =>
    rw [hchunks] at h
    dsimp only at h ⊢
    rw [parse?, List.length_cons, chunks?] at hchunks
    swap
    · simp
    obtain ⟨items, hitems, hchunks⟩ := Option.bind_eq_some_iff.mp hchunks
    obtain ⟨later, -, hchunks⟩ := Option.bind_eq_some_iff.mp hchunks
    cases hchunks
    have hany : (name.any fun x => decide (x = slash)) = false := by
      rw [List.any_eq_false]
      rintro x hx heq
      exact hname (of_decide_eq_true heq ▸ hx)
    cases items with
    | nil =>
      by_cases hstar : c = starByte
      · simp [matchChunks, hstar, hany]
      · -- a chunk without a star has an item for its first byte
        rw [List.dropWhile_cons_of_neg (by simpa using hstar)] at hitems
        obtain ⟨d, r, hchunk⟩ := List.exists_cons_of_ne_nil (untilStar_ne_nil hstar s)
        rw [hchunk] at hitems
        exact absurd rfl (items_ne_nil hitems)
    | cons item items => simp [matchChunks, matchItems, findItems] at h

end Fitting

section Paths

/-- A path below a directory. Below no directory it stands alone. -/
def beneath (dir path : Bytes) : Bytes := if dir.isEmpty then path else dir ++ slash :: path

/-- A double star below a directory, if one is named, and before a pattern, if there is one. -/
def doubleStar (dir : Bytes) (inner : Option Bytes) : Bytes := beneath dir (bytes "**" ++ inner.elim [] (slash :: ·))

/-- What is left of a path at the beginning of one of its names. -/
def TailOf (tail path : Bytes) : Prop := tail = path ∨ ∃ front, path = front ++ slash :: tail

variable {dir : Bytes} {inner : Option Bytes}

theorem beneath_of_ne_nil (hdir : dir ≠ []) (path : Bytes) : beneath dir path = dir ++ slash :: path :=
  if_neg (by simpa using hdir)

theorem mem_tails {tail segments : List Bytes} : tail ∈ tails segments ↔ tail ≠ [] ∧ tail <:+ segments := by
  induction segments with
  | nil => simp [tails]
  | cons s segments ih =>
    rw [tails, List.mem_cons, ih, List.suffix_cons_iff]
    constructor
    · rintro (rfl | ⟨hne, h⟩)
      · exact ⟨List.cons_ne_nil _ _, .inl rfl⟩
      · exact ⟨hne, .inr h⟩
    · rintro ⟨hne, rfl | h⟩
      · exact .inl rfl
      · exact .inr ⟨hne, h⟩

/-- The tails of a path are those of its names, joined. -/
theorem tailOf_iff {tail path : Bytes} :
    TailOf tail path ↔ ∃ segments ∈ tails (path.splitOn slash), Bytes.join "/" segments = tail := by
  have hjoin := Bytes.join_splitOn slash
  constructor
  · rintro (rfl | ⟨front, rfl⟩)
    · exact ⟨_, mem_tails.mpr ⟨Bytes.splitOn_ne_nil _ _, List.suffix_rfl⟩, hjoin tail⟩
    · rw [Bytes.splitOn_append]
      exact ⟨_, mem_tails.mpr ⟨Bytes.splitOn_ne_nil _ _, List.suffix_append _ _⟩, hjoin tail⟩
  · rintro ⟨segments, hsegments, rfl⟩
    obtain ⟨hne, front, hfront⟩ := mem_tails.mp hsegments
    cases front with
    | nil => exact .inl (by rw [← hjoin path, ← hfront]; rfl)
    | cons first front =>
      refine .inr ⟨Bytes.join "/" (first :: front), ?_⟩
      rw [← hjoin path, ← hfront]
      exact Bytes.join_append "/" (List.cons_ne_nil _ _) hne

/-- A pattern fits a tail of a path or, if it is only for names, one of its names. -/
theorem any_tails_iff {pattern path : Bytes} (hclass : ClassFree pattern) :
    ((tails (path.splitOn slash)).any fun segments => fits pattern (Bytes.join "/" segments) ||
      (!Bytes.contains pattern "/" && fits pattern (segments.headD []))) = true ↔
    (slash ∉ pattern ∧ ∃ segment ∈ path.splitOn slash, fits pattern segment = true) ∨
      (slash ∈ pattern ∧ ∃ tail, TailOf tail path ∧ fits pattern tail = true) := by
  have hcontains : Bytes.contains pattern "/" = decide (slash ∈ pattern) := Bytes.contains_singleton pattern slash
  simp only [List.any_eq_true, hcontains, Bool.or_eq_true, Bool.and_eq_true, Bool.not_eq_true', decide_eq_false_iff_not]
  by_cases hslash : slash ∈ pattern
  · simp only [hslash, not_true_eq_false, false_and, or_false, true_and, false_or]
    constructor
    · rintro ⟨segments, hsegments, hfits⟩
      exact ⟨_, tailOf_iff.mpr ⟨segments, hsegments, rfl⟩, hfits⟩
    · rintro ⟨tail, htail, hfits⟩
      obtain ⟨segments, hsegments, rfl⟩ := tailOf_iff.mp htail
      exact ⟨segments, hsegments, hfits⟩
  · simp only [hslash, not_false_eq_true, true_and, false_and, or_false]
    constructor
    · rintro ⟨segments, hsegments, hfits⟩
      obtain ⟨hne, hsuffix⟩ := mem_tails.mp hsegments
      obtain ⟨segment, rest, rfl⟩ := List.exists_cons_of_ne_nil hne
      refine ⟨segment, hsuffix.subset (List.mem_cons_self ..), ?_⟩
      obtain hfits | hfits := hfits
      · -- what the pattern fits has no slash, so there is only one name
        have hnone := slash_not_mem_of_fits hclass hslash hfits
        cases rest with
        | nil =>
          rwa [Bytes.join, List.intercalate_singleton] at hfits
        | cons next rest =>
          rw [Bytes.join_cons _ _ (List.cons_ne_nil _ _)] at hnone
          exact absurd (List.mem_append_right _ (List.mem_cons_self ..)) hnone
      · exact hfits
    · rintro ⟨segment, hsegment, hfits⟩
      obtain ⟨front, back, hsplit⟩ := List.append_of_mem hsegment
      exact ⟨segment :: back, mem_tails.mpr ⟨List.cons_ne_nil _ _, front, hsplit.symm⟩, .inr hfits⟩

theorem indexOf?_doubleStar (hdir : Bytes.contains dir "**" = false) (rest : Bytes) :
    Bytes.indexOf? "**" (beneath dir (bytes "**" ++ rest)) = some (beneath dir []).length := by
  have hhere (dir : Bytes) : Bytes.contains dir "**" = false →
      Bytes.indexOf? "**" (dir ++ slash :: (bytes "**" ++ rest)) = some (dir.length + 1) := by
    intro hdir
    induction dir with
    | nil => rfl
    | cons c dir ih =>
      rw [Bytes.contains, Bytes.indexOf?] at hdir
      split at hdir
      · cases hdir
      · next hstarts =>
        have hlater : Bytes.contains dir "**" = false := by
          rwa [Option.isSome_map] at hdir
        -- the first two bytes are those of the directory, or the second is a slash
        have hstarts : ¬Bytes.startsWith (c :: (dir ++ slash :: (bytes "**" ++ rest))) "**" = true := by
          cases dir with
          | nil => exact Bool.eq_false_iff.mp (Bool.and_false (starByte == c))
          | cons d dir => exact hstarts
        rw [List.cons_append, Bytes.indexOf?, if_neg hstarts, ih hlater]
        rfl
  cases hempty : dir.isEmpty with
  | true =>
    rw [beneath, beneath, if_pos hempty, if_pos hempty]
    rfl
  | false =>
    rw [beneath, beneath, if_neg (by simp [hempty]), if_neg (by simp [hempty]), hhere dir hdir, List.length_append]
    rfl

theorem cutDoubleStar?_doubleStar (hdir : Bytes.contains dir "**" = false) :
    cutDoubleStar? (doubleStar dir inner) = some (beneath dir [], inner.elim [] (slash :: ·)) := by
  have hsplit : doubleStar dir inner = beneath dir [] ++ (bytes "**" ++ inner.elim [] (slash :: ·)) := by
    unfold doubleStar beneath
    split
    · rfl
    · rw [List.append_assoc]
      rfl
  have hindex : Bytes.indexOf? "**" (doubleStar dir inner) = some (beneath dir []).length := indexOf?_doubleStar hdir _
  have hlength : (bytes "**").length = 2 := rfl
  rw [cutDoubleStar?, hindex, Option.map_some, hsplit, List.take_left, ← List.drop_drop, List.drop_left, ← hlength,
    List.drop_left]

theorem dropTail_beneath (dir : Bytes) : (beneath dir []).dropTail "/" = dir := by
  by_cases hdir : dir = []
  · rw [hdir]
    rfl
  · rw [beneath_of_ne_nil hdir]
    exact Bytes.dropTail_append dir "/"

theorem startsWith_beneath (hdir : dir ≠ []) {path : Bytes} :
    path.startsWith (dir ++ bytes "/") = true ↔ ∃ below, path = beneath dir below := by
  rw [Bytes.startsWith, List.isPrefixOf_iff_prefix]
  constructor
  · rintro ⟨below, rfl⟩
    exact ⟨below, by rw [beneath_of_ne_nil hdir, List.append_assoc]; rfl⟩
  · rintro ⟨below, rfl⟩
    exact ⟨below, by rw [beneath_of_ne_nil hdir, List.append_assoc]; rfl⟩

/-- What is left of a path below a directory. -/
def rest (dir path : Bytes) : Bytes := (path.dropHead dir).dropHead "/"

theorem rest_beneath {path : Bytes} (hrelative : Path.isAbsolute (beneath dir path) = false) :
    rest dir (beneath dir path) = path := by
  by_cases hdir : dir = []
  · subst hdir
    have hhead : Bytes.dropHead (beneath [] path) [] = path := rfl
    rw [rest, hhead]
    exact if_neg (by rw [Bool.not_eq_true]; exact hrelative)
  · rw [rest, beneath_of_ne_nil hdir, Bytes.dropHead_append]
    exact Bytes.dropHead_append "/" path

theorem rest_self (dir : Bytes) : rest dir dir = [] := by
  have hhead : Bytes.dropHead dir dir = [] := by
    have h := Bytes.dropHead_append dir []
    rwa [List.append_nil] at h
  rw [rest, hhead]
  rfl

variable {path : Bytes}

/-- At a directory and below it, a pattern with a double star goes by what is left of the path. -/
theorem matchPath_of_beneath (hstar : Bytes.contains dir "**" = false) (hinner : ∀ p ∈ inner, p ≠ [])
    (h : path = dir ∨ ∃ below, path = beneath dir below) : matchPath path (doubleStar dir inner) =
      inner.all fun p => (tails ((rest dir path).splitOn slash)).any fun segments => fits p (Bytes.join "/" segments) ||
        (!Bytes.contains p "/" && fits p (segments.headD [])) := by
  have hunder : (!dir.isEmpty && path != dir && !path.startsWith (dir ++ bytes "/")) = false := by
    obtain rfl | hbeneath := h
    · simp
    · by_cases hdir : dir = []
      · simp [hdir]
      · rw [(startsWith_beneath hdir).mpr hbeneath, Bool.not_true, Bool.and_false]
  unfold matchPath
  rw [cutDoubleStar?_doubleStar hstar]
  dsimp only
  unfold fitsDoubleStar
  dsimp only
  rw [dropTail_beneath, hunder]
  cases inner with
  | none => rfl
  | some p =>
    have hafter : Bytes.dropHead (slash :: p) "/" = p := Bytes.dropHead_append "/" p
    have hp : p.isEmpty = false := by simpa using hinner p rfl
    simp only [Option.elim_some, hafter, hp, Bool.false_eq_true, if_false, Option.all_some]
    rfl

/-- A path that is neither a directory nor below it is passed over. -/
theorem matchPath_of_not_beneath (hstar : Bytes.contains dir "**" = false) (hself : path ≠ dir)
    (h : ∀ below, path ≠ beneath dir below) : matchPath path (doubleStar dir inner) = false := by
  have hdir : dir ≠ [] := by
    rintro rfl
    exact h path rfl
  have hstarts : Bytes.startsWith path (dir ++ bytes "/") = false := by
    rw [Bool.eq_false_iff, ne_eq, startsWith_beneath hdir]
    exact fun ⟨below, hbelow⟩ => h below hbelow
  unfold matchPath
  rw [cutDoubleStar?_doubleStar hstar]
  dsimp only
  unfold fitsDoubleStar
  dsimp only
  rw [dropTail_beneath, hstarts, if_pos (by simp [hdir, hself])]

theorem matchPath_self (hstar : Bytes.contains dir "**" = false) {p : Bytes} (hp : p ≠ [])
    (h : matchPath dir (doubleStar dir (some p)) = true) : fits p [] = true := by
  have hinner : ∀ q ∈ some p, q ≠ [] := by simpa using hp
  rw [matchPath_of_beneath hstar hinner (.inl rfl), rest_self] at h
  simp only [Option.all_some, Bytes.splitOn, tails, Bytes.join, List.any_cons, List.any_nil, Bool.or_false,
    List.intercalate_singleton, List.headD_cons, Bool.or_eq_true, Bool.and_eq_true] at h
  exact h.elim id And.right

/-- Below a directory, a pattern with a double star says where a name or a tail of the path fits. -/
theorem matchPath_beneath_iff (hstar : Bytes.contains dir "**" = false) (hinner : ∀ p ∈ inner, p ≠ [] ∧ ClassFree p)
    {below : Bytes} (hrelative : Path.isAbsolute (beneath dir below) = false) :
    matchPath (beneath dir below) (doubleStar dir inner) = true ↔ inner = none ∨ ∃ p ∈ inner,
      (slash ∉ p ∧ ∃ segment ∈ below.splitOn slash, fits p segment = true) ∨
        (slash ∈ p ∧ ∃ tail, TailOf tail below ∧ fits p tail = true) := by
  rw [matchPath_of_beneath hstar (fun p hp => (hinner p hp).1) (.inr ⟨below, rfl⟩), rest_beneath hrelative]
  cases inner with
  | none => simp
  | some p =>
    rw [Option.all_some, any_tails_iff (hinner p rfl).2]
    simp

theorem beneath_append (dir below name : Bytes) :
    beneath dir below ++ slash :: name = beneath dir (below ++ slash :: name) := by
  unfold beneath
  split
  · rfl
  · rw [List.append_assoc]
    rfl

end Paths

/-- A pattern with a double star passes over the paths that are not at its directory or below it. Below it, a path fits
if a name of it or, where the pattern goes on with a slash, a tail of it fits what follows the double star. If nothing
or only a name follows, all that is below a path that fits does too. -/
theorem matchPath_doubleStar {dir : Bytes} {inner : Option Bytes} (hstar : Bytes.contains dir "**" = false)
    (hinner : ∀ p ∈ inner, p ≠ [] ∧ ClassFree p) {path : Bytes} (hpath : path ≠ [])
    (hrelative : Path.isAbsolute path = false) :
    (∀ below, path = beneath dir below → (matchPath path (doubleStar dir inner) = true ↔ inner = none ∨ ∃ p ∈ inner,
      (slash ∉ p ∧ ∃ segment ∈ below.splitOn slash, fits p segment = true) ∨
        (slash ∈ p ∧ ∃ tail, TailOf tail below ∧ fits p tail = true))) ∧
    (path ≠ dir → (∀ below, path ≠ beneath dir below) → matchPath path (doubleStar dir inner) = false) ∧
    ((∀ p ∈ inner, slash ∉ p) → matchPath path (doubleStar dir inner) = true →
      ∀ name : Bytes, matchPath (path ++ slash :: name) (doubleStar dir inner) = true) := by
  refine ⟨?_, matchPath_of_not_beneath hstar, fun hslash hmatch name => ?_⟩
  · rintro below rfl
    exact matchPath_beneath_iff hstar hinner hrelative
  have hlater : Path.isAbsolute (path ++ slash :: name) = false := by
    obtain ⟨b, s, rfl⟩ := List.exists_cons_of_ne_nil hpath
    exact hrelative
  by_cases hself : path = dir
  · subst hself
    rw [← beneath_of_ne_nil hpath] at hlater ⊢
    rw [matchPath_beneath_iff hstar hinner hlater]
    cases inner with
    | none => exact .inl rfl
    | some p =>
      obtain ⟨hp, -⟩ := hinner p rfl
      obtain ⟨segment, segments, hsplit⟩ := List.exists_cons_of_ne_nil (Bytes.splitOn_ne_nil slash name)
      have hsegment : segment ∈ name.splitOn slash := hsplit ▸ List.mem_cons_self ..
      have hfits := fits_of_fits_nil hp (matchPath_self hstar hp hmatch) (Bytes.not_mem_of_mem_splitOn hsegment)
      exact .inr ⟨p, rfl, .inl ⟨hslash p rfl, segment, hsegment, hfits⟩⟩
  · obtain ⟨below, rfl⟩ : ∃ below, path = beneath dir below := by
      by_contra hnone
      rw [matchPath_of_not_beneath hstar hself (not_exists.mp hnone)] at hmatch
      cases hmatch
    rw [beneath_append] at hlater ⊢
    rw [matchPath_beneath_iff hstar hinner hlater]
    obtain hnone | ⟨p, hp, ⟨hname, segment, hsegment, hfits⟩ | ⟨hname, -⟩⟩ :=
      (matchPath_beneath_iff hstar hinner hrelative).mp hmatch
    · exact .inl hnone
    · refine .inr ⟨p, hp, .inl ⟨hname, segment, ?_, hfits⟩⟩
      rw [Bytes.splitOn_append]
      exact List.mem_append_left _ hsegment
    · exact absurd hname (hslash p hp)

/-- Names below a directory, in which a star stands for any letters. -/
theorem matchPath_doubleStar_names : doubleStar "src" (some "gen*") = bytes "src/**/gen*" ∧
    (∀ name : Bytes, matchPath (bytes "src/app/generated" ++ slash :: name) "src/**/gen*" = true) ∧
    matchPath "srcs/generated" "src/**/gen*" = false := by
  have hinner : ∀ p ∈ (some (bytes "gen*") : Option Bytes), p ≠ [] ∧ ClassFree p := by decide
  have hstar : Bytes.contains "src" "**" = false := by decide
  have happ := @matchPath_doubleStar "src" _ hstar hinner "src/app/generated" (by decide) (by decide)
  have hsrcs := @matchPath_doubleStar "src" _ hstar hinner "srcs/generated" (by decide) (by decide)
  have hbeneath : ∀ below, bytes "srcs/generated" ≠ beneath "src" below := by
    intro below hbelow
    cases hbelow
  exact ⟨rfl, happ.2.2 (by decide) ((happ.1 "app/generated" rfl).mpr
    (.inr ⟨_, rfl, .inl ⟨by decide, "generated", by decide, by decide⟩⟩)), hsrcs.2.1 (by decide) hbeneath⟩

end Glob

end Pattern

end Codemod
