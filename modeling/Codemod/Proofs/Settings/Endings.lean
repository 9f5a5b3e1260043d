import Codemod.Proofs.Settings.Extensions
import Codemod.Proofs.Text.Lower

namespace Codemod

open Classify Files Workspace

/-- The byte that an extension begins with. -/
abbrev dot : UInt8 := 46

namespace Files.Path

/-- What stands behind the last dot of a name is its extension. -/
theorem extension_append {front tail : Bytes} (hdot : dot ∉ tail) (hslash : slash ∉ tail) :
    extension (front ++ dot :: tail) = dot :: tail := by
  have hname : ((front ++ dot :: tail).reverse.takeWhile (· ≠ slash)).reverse =
      (front.reverse.takeWhile (· ≠ slash)).reverse ++ dot :: tail := by
    have hkept : ∀ b ∈ tail.reverse ++ [dot], decide (b ≠ slash) = true := by
      intro b hb
      rw [decide_eq_true_eq]
      rintro rfl
      simp only [List.mem_append, List.mem_reverse, hslash, List.mem_singleton, false_or] at hb
      exact absurd hb (by decide)
    rw [List.reverse_append, List.reverse_cons, List.takeWhile_append_of_pos hkept, List.reverse_append]
    simp
  have hlast (name : Bytes) : (name ++ dot :: tail).reverse.takeWhile (· != dot) = tail.reverse := by
    have hkept : ∀ b ∈ tail.reverse, (b != dot) = true := by
      intro b hb
      rw [bne_iff_ne]
      rintro rfl
      exact hdot (List.mem_reverse.mp hb)
    rw [List.reverse_append, List.reverse_cons, List.append_assoc, List.takeWhile_append_of_pos hkept]
    simp
  unfold extension
  dsimp only
  rw [hname]
  generalize (front.reverse.takeWhile (· ≠ slash)).reverse = name
  have hlength : (name ++ dot :: tail).length = name.length + (tail.length + 1) := List.length_append ..
  have hbefore : name.length + (tail.length + 1) - tail.length - 1 = name.length := by omega
  show (if ((name ++ dot :: tail).reverse.takeWhile (· != dot)).length = _ then _ else
    List.drop (_ - ((name ++ dot :: tail).reverse.takeWhile (· != dot)).length - 1) _) = _
  rw [hlast, List.length_reverse, hlength, if_neg (by omega), hbefore, List.drop_left]

/-- The extension of a path in small letters is that of its end in small letters. -/
theorem lower_extension (front : Bytes) {tail : Bytes} (hdot : dot ∈ Text.lower tail) (hslash : slash ∉ Text.lower tail) :
    Text.lower (extension (front ++ tail)) = extension (Text.lower tail) := by
  have hmark : dot ∈ Text.pathMarks ∧ slash ∈ Text.pathMarks := by decide
  rw [Text.mem_lower hmark.1] at hdot
  rw [Text.mem_lower hmark.2] at hslash
  obtain ⟨before, last, rfl, hlast⟩ : ∃ before last, tail = before ++ dot :: last ∧ dot ∉ last := by
    obtain ⟨last, before, hsplit, hlast⟩ := List.eq_append_cons_of_mem (List.mem_reverse.mpr hdot)
    refine ⟨before.reverse, last.reverse, ?_, by rwa [List.mem_reverse]⟩
    rw [← List.reverse_reverse tail, hsplit]
    simp
  have hslash' : slash ∉ last := fun h => hslash (by simp [h])
  have hdot' : dot ∉ Text.lower last := (Text.mem_lower hmark.1).not.mpr hlast
  rw [← List.append_assoc, extension_append hlast hslash', Text.lower_mark_cons hmark.1, Text.lower_append_mark hmark.1,
    extension_append hdot' ((Text.mem_lower hmark.2).not.mpr hslash')]

end Files.Path

namespace Classify

section Normal

variable {ext : String}

/-- The end of a path that an extension stands for, with its dot. -/
def dotted (ext : String) : Bytes := if (Text.lower ext).startsWith "." then ext else "." ++ bytes ext

theorem lower_dotted (ext : String) : Text.lower (dotted ext) = normalExtension ext := by
  unfold dotted normalExtension
  dsimp only
  split
  · rfl
  · exact Text.lower_mark_cons (by decide) _

theorem exists_normalExtension (ext : String) : ∃ rest, normalExtension ext = dot :: rest := by
  unfold normalExtension
  dsimp only
  split
  · next h =>
    obtain ⟨rest, hrest⟩ := List.isPrefixOf_iff_prefix.mp h
    exact ⟨rest, hrest.symm⟩
  · exact ⟨_, rfl⟩

theorem dot_mem_normalExtension (ext : String) : dot ∈ normalExtension ext := by
  obtain ⟨rest, hrest⟩ := exists_normalExtension ext
  rw [hrest]
  exact List.mem_cons_self ..

theorem slash_not_mem_normalExtension (h : Settings.isExtension ext = true) : slash ∉ normalExtension ext := by
  have hchars : ∀ c ∈ ext.toList, c ≠ '/' := by
    intro c hc hslash
    simp only [Settings.isExtension, Bool.and_eq_true, Bool.not_eq_true', List.any_eq_false] at h
    exact h.2 c hc (by simp [hslash])
  have hlower : slash ∉ Text.lower (bytes ext) := by
    rw [Text.mem_lower (by decide), bytes, List.mem_flatMap]
    rintro ⟨c, hc, hmem⟩
    exact hchars c hc ((Text.mem_encode (by decide)).mp hmem)
  unfold normalExtension
  dsimp only
  split
  · exact hlower
  · exact List.not_mem_cons_of_ne_of_not_mem (by decide) hlower

/-- An extension without another dot is one of a path. -/
theorem extension_normalExtension (h : Settings.isExtension ext = true) (hdot : dot ∉ (normalExtension ext).tail) :
    Path.extension (normalExtension ext) = normalExtension ext := by
  have hslash := slash_not_mem_normalExtension h
  obtain ⟨rest, hrest⟩ := exists_normalExtension ext
  rw [hrest] at hslash hdot ⊢
  rw [← List.nil_append (dot :: rest)]
  exact Path.extension_append hdot (List.not_mem_of_not_mem_cons hslash)

end Normal

/-- A path whose name ends in an extension, in letters of any case, behind at least one byte. -/
def EndsIn (path : Bytes) (ext : String) : Prop :=
  ∃ front b tail, path = front ++ b :: tail ∧ b ≠ slash ∧ Text.lower tail = normalExtension ext

/-- The extensions of a kind with their dots, in small letters. -/
def Extensions.normals (e : Extensions) (kind : Kind) : List Bytes := ((e.lookup kind).getD []).map normalExtension

/-- The kind, of those that an extension is configured for, that comes last. -/
def Extensions.Gives (e : Extensions) (x : Bytes) (kind : Kind) : Prop :=
  x ∈ e.normals kind ∧ ∀ other ∈ Kind.all, kind.code < other.code → x ∉ e.normals other

theorem lookup_map_const {k : Kind} (l : List Bytes) (x : Bytes) :
    (l.map fun y => (y, k)).lookup x = if x ∈ l then some k else none := by
  induction l with
  | nil => rfl
  | cons y rest ih =>
    rw [List.map_cons, List.lookup_cons, ih]
    by_cases h : x = y
    · simp [h]
    · rw [beq_eq_false_iff_ne.mpr h]
      simp [h]

/-- The last of the kinds with an extension has it. -/
theorem lookup_ofExtensions (e : Extensions) (x : Bytes) : (Classifier.ofExtensions e).byExtension.lookup x =
    Kind.all.reverse.find? fun kind => x ∈ e.normals kind := by
  have hflat (kinds : List Kind) : (kinds.flatMap fun kind => ((e.normals kind).map fun y => (y, kind)).reverse).lookup x =
      kinds.find? fun kind => x ∈ e.normals kind := by
    induction kinds with
    | nil => rfl
    | cons kind rest ih =>
      rw [List.flatMap_cons, List.lookup_append, ih, ← List.map_reverse, lookup_map_const, List.find?_cons]
      by_cases h : x ∈ e.normals kind
      · simp [h]
      · simp [h]
  rw [← hflat, Classifier.ofExtensions, List.reverse_flatMap]
  simp [Extensions.normals, Function.comp_def]

/-- A path that ends in an extension goes by what follows the last dot of the extension. -/
theorem candidate_of_endsIn {ext : String} (hext : Settings.isExtension ext = true) {path : Bytes} (h : EndsIn path ext)
    (c : Classifier) : c.candidate? path = c.byExtension.lookup (Path.extension (normalExtension ext)) := by
  obtain ⟨front, b, tail, rfl, -, htail⟩ := h
  have hextension := Path.lower_extension (front ++ [b]) (htail ▸ dot_mem_normalExtension ext) (htail ▸ slash_not_mem_normalExtension hext)
  rw [List.append_assoc, List.singleton_append] at hextension
  rw [Classifier.candidate?, hextension, htail]

theorem exists_endsIn (ext : String) : ∃ path, EndsIn path ext :=
  ⟨([] : Bytes) ++ ('a' : Char).toUInt8 :: dotted ext, [], _, dotted ext, rfl, by decide, lower_dotted ext⟩

end Classify

namespace Settings

section Checked

variable {s : Settings} {registry : Option Migration.Registry}

theorem find?_normals {e : Extensions} {kind : Kind} (hkind : kind ∈ Kind.all) {x : Bytes} :
    (Kind.all.reverse.find? fun kind => x ∈ e.normals kind) = some kind ↔ e.Gives x kind := by
  have hall : Kind.all.reverse = [.source, .style, .template] := rfl
  unfold Extensions.Gives
  rw [hall]
  simp only [Kind.all, List.mem_cons, List.not_mem_nil, or_false] at hkind
  by_cases hsource : x ∈ e.normals .source
  · obtain rfl | rfl | rfl := hkind <;> simp [Kind.all, Kind.code, hsource]
  · by_cases hstyle : x ∈ e.normals .style
    · obtain rfl | rfl | rfl := hkind <;> simp [Kind.all, Kind.code, hsource, hstyle]
    · obtain rfl | rfl | rfl := hkind <;> simp [Kind.all, Kind.code, hsource, hstyle]

/-- All extensions that checked settings come to can end a file name. -/
theorem isExtension_of_resolved (hcheck : (s.check registry).errors = []) {e : Extensions} (he : s.resolved = .ok e) {kind : Kind}
    {ext : String} (hext : ext ∈ (e.lookup kind).getD []) : isExtension ext = true := by
  have husable := usable_of_check hcheck
  rw [resolved_of_names fun entry hentry => (husable entry hentry).1] at he
  obtain rfl := Except.ok.inj he
  cases hlookup : List.lookup kind _ with
  | none =>
    rw [hlookup] at hext
    cases hext
  | some extensions =>
    rw [hlookup] at hext
    obtain ⟨_, _, hsplit, -⟩ := List.lookup_eq_some_iff.mp hlookup
    obtain ⟨found, hfound, heq⟩ := List.mem_map.mp (hsplit ▸ List.mem_append_right _ (List.mem_cons_self ..))
    cases heq
    obtain ⟨-, hlatest⟩ | ⟨entry, hentry, -, hlatest⟩ :=
      latest_cases (s.extensions.getD []) kind (defaultExtensions.lookup kind)
    · have hdefault : ∀ kind ∈ Kind.all, ∀ ext ∈ (defaultExtensions.lookup kind).getD [], isExtension ext = true := by
        decide
      exact hdefault kind hfound ext (hlatest ▸ hext)
    · exact (husable entry hentry).2 ext (hlatest ▸ hext)

end Checked

/-- Settings that pass the check make a classifier. Where an extension is configured for one kind only, the files that
end in it are of that kind if its last dot is its first. If there is another dot in it, that is so if and only if what
follows the last one is an extension of the same kind by itself, and of none that comes later. -/
theorem candidate_of_checked {s : Settings} {registry : Option Migration.Registry} (hcheck : (s.check registry).errors = []) :
    ∃ e, s.resolved = .ok e ∧ s.classifier = .ok (.ofExtensions e) ∧ ∀ kind ∈ Kind.all, ∀ ext ∈ (e.lookup kind).getD [],
      (∀ other ∈ Kind.all, other ≠ kind → normalExtension ext ∉ e.normals other) →
        (dot ∉ (normalExtension ext).tail → ∀ path, EndsIn path ext → (Classifier.ofExtensions e).candidate? path = some kind) ∧
        ((∀ path, EndsIn path ext → (Classifier.ofExtensions e).candidate? path = some kind) ↔
          e.Gives (Path.extension (normalExtension ext)) kind) := by
  obtain ⟨e, he⟩ : ∃ e, s.resolved = .ok e := ⟨_, resolved_of_names fun entry hentry => (usable_of_check hcheck entry hentry).1⟩
  refine ⟨e, he, by rw [classifier_eq, he]; rfl, fun kind hkind ext hext halone => ?_⟩
  have hvalid := isExtension_of_resolved hcheck he hext
  have hcandidate {path : Bytes} (hpath : EndsIn path ext) :
      (Classifier.ofExtensions e).candidate? path = some kind ↔ e.Gives (Path.extension (normalExtension ext)) kind := by
    rw [candidate_of_endsIn hvalid hpath, lookup_ofExtensions, find?_normals hkind]
  have hgives (hdot : dot ∉ (normalExtension ext).tail) : e.Gives (Path.extension (normalExtension ext)) kind := by
    rw [extension_normalExtension hvalid hdot]
    refine ⟨List.mem_map_of_mem hext, fun other hother hlater => halone other hother ?_⟩
    rintro rfl
    exact Int.lt_irrefl _ hlater
  refine ⟨fun hdot path hpath => (hcandidate hpath).mpr (hgives hdot), fun hall => ?_, fun hpart path hpath => (hcandidate hpath).mpr hpart⟩
  obtain ⟨path, hpath⟩ := exists_endsIn ext
  exact (hcandidate hpath).mp (hall path hpath)

/-- Pages by another extension, in letters of any case. -/
theorem candidate_of_checked_htm : ∃ c, (ofLists [("Template", some ["htm"])]).classifier = .ok c ∧
    c.candidate? "src/a.HTM" = some .template := by
  have hresolved : (ofLists [("Template", some ["htm"])]).resolved =
      .ok [(.template, ["htm"]), (.style, [".scss", ".sass", ".css"]), (.source, [".ts"])] := rfl
  have husable : Usable [("Template", some ["htm"])] := by decide
  obtain ⟨e, he, hclassifier, hall⟩ := candidate_of_checked (check_ofLists husable)
  obtain rfl := Except.ok.inj (hresolved.symm.trans he)
  refine ⟨_, hclassifier, (hall .template (by decide) "htm" (by decide) (by decide)).1 (by decide) _ ?_⟩
  exact ⟨"src/", ('a' : Char).toUInt8, ".HTM", by decide, by decide, by decide⟩

/-- An extension of two parts passes the check, and no page that ends in it is found. -/
theorem no_candidate_of_two_parts : ((ofLists [("template", some [".component.html"])]).check none).errors = [] ∧
    ∃ c, (ofLists [("template", some [".component.html"])]).classifier = .ok c ∧
      EndsIn "app.component.html" ".component.html" ∧ c.candidate? "app.component.html" = none := by
  have hresolved : (ofLists [("template", some [".component.html"])]).resolved =
      .ok [(.template, [".component.html"]), (.style, [".scss", ".sass", ".css"]), (.source, [".ts"])] := rfl
  refine ⟨check_ofLists (by decide), _, by rw [classifier_eq, hresolved]; rfl, ?_, by decide⟩
  exact ⟨"ap", ('p' : Char).toUInt8, ".component.html", by decide, by decide, by decide⟩

end Settings

end Codemod
