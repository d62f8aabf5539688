import SagePTE.Lib.Bytes
import SagePTE.Lib.Lines
import SagePTE.Lib.Substitute

/-!
# Relocating the module table

`relocate_modules.py` repoints the paths of a module table that do not exist any more at files
under a new root. It collects the paths in the last fields of the lines. For each path that does
not exist it looks for the deepest tail of it under the root, and replaces the path in the whole
file. A shorter replacement is filled up with slashes after the root.

## Main definitions

* `candidate`, `wanted` — the paths of the table
* `longestExistingSuffix` — the file under the root
* `relocateModules` — the content of the file after the script
* `relocation`, `relocated` — the file for a path, and what stands for the path in the end

## Main results

* `longestExistingSuffix_eq_some`, `relocation_eq_some` — the file that is found
* `length_replacement`, `collapse_replacement` — the same length, and the same file
* `exists_relocated_eq`, `infix_of_infix_relocated` — what stands for a path in the end
* `relocatePath_eq` — one turn of the loop; the assertion always holds
* `length_foldlM_relocatePath` — the loop does not move anything, if the replacements fit
-/

set_option autoImplicit false

namespace SagePTE.Tracer

open Bytes Substitute

/-! ### Paths -/

abbrev slash : Byte := 0x2F

abbrev newline : Byte := 0x0A

/-- A comma and a space. -/
abbrev fieldSep : List Byte := [0x2C, 0x20]

/-- The bytes that `strip` removes. -/
def isSpace (b : Byte) : Bool := b = 0x20 ∨ 9 ≤ b.toNat ∧ b.toNat ≤ 13

/-- The new root, an absolute path. -/
structure Root where
  path : List Byte
  absolute : path.head? = some slash

/-- The nonempty components of a path. -/
def pathParts (path : List Byte) : List (List Byte) := (path.splitOn slash).filter (· ≠ [])

/-- `os.path.join` of a path and one more component. -/
def joinPart (path part : List Byte) : List Byte :=
  if part.head? = some slash then part
  else if path = [] ∨ path.getLast? = some slash then path ++ part
  else path ++ slash :: part

/-- `os.path.join` of a path and components. -/
def joinPath (path : List Byte) (parts : List (List Byte)) : List Byte :=
  parts.foldl joinPart path

/-! ### The script -/

section Script

variable (present : List Byte → Bool) (root : Root)

/-- The first of the tails of a path that exists under the root, the deepest one first. -/
def longestExistingSuffix : List (List Byte) → Option (List Byte)
  | [] => none
  | part :: parts =>
    let candidate := joinPath root.path (part :: parts)
    if present candidate = true then some candidate else longestExistingSuffix parts

/-- The path in the last field of a line. -/
def candidate (line : List Byte) : Option (List Byte) :=
  match rsplit fieldSep line with
  | none => none
  | some (_, last) =>
    if (strip isSpace last).head? = some slash then some (strip isSpace last) else none

/-- One line: its path is added, if there is one that has not been added before. -/
def addCandidate (wanted : List (List Byte)) (line : List Byte) : List (List Byte) :=
  match candidate line with
  | none => wanted
  | some path => if path ∈ wanted then wanted else wanted ++ [path]

/-- The paths of the table. -/
def wanted (blob : List Byte) : List (List Byte) :=
  (blob.splitOn newline).foldl addCandidate []

/-- What a path is replaced with. A shorter one is filled up with slashes after the root. -/
def replacement (raw found : List Byte) : List Byte :=
  if found.length ≤ raw.length then
    root.path ++ List.replicate (raw.length - found.length) slash ++
      found.drop root.path.length
  else found

/-- The exceptions that end the script. -/
inductive ScriptError
  | unicodeEncode
  | assertion
  deriving DecidableEq

/-- One path: the number of the paths that have been relocated, and the content. -/
def relocatePath (state : ℕ × List Byte) (raw : List Byte) :
    Except ScriptError (ℕ × List Byte) :=
  if validUtf8 raw = false then .ok state
  else if present raw = true then .ok state
  else match longestExistingSuffix present root (pathParts raw) with
    | none => .ok state
    | some found =>
      -- the root may have bytes that cannot be decoded
      if validUtf8 found = false then .error .unicodeEncode
      else if raw.length < found.length ∨ (replacement root raw found).length = raw.length then
        .ok (state.1 + 1, substitute raw (replacement root raw found) state.2)
      else .error .assertion

/-- The content of the file after the script, which does not write it after an exception or if
no path has been relocated. -/
def relocateModules (blob : List Byte) : Except ScriptError (List Byte) := do
  let (changed, blob') ← (wanted blob).foldlM (relocatePath present root) (0, blob)
  return if changed ≠ 0 then blob' else blob

end Script

/-! ### Joined paths -/

theorem ne_nil_of_mem_pathParts {path part : List Byte} (h : part ∈ pathParts path) :
    part ≠ [] ∧ slash ∉ part :=
  ⟨by simpa using (List.mem_filter.1 h).2,
    Lines.not_mem_of_mem_splitOn (List.mem_of_mem_filter h)⟩

/-- A component is appended, after a slash if there is none. -/
theorem joinPart_eq {path part : List Byte} (hpath : path ≠ []) (hpart : slash ∉ part) :
    joinPart path part =
      path ++ if path.getLast? = some slash then part else slash :: part := by
  have hhead : part.head? ≠ some slash := fun h => hpart (List.mem_of_mem_head? h)
  rw [joinPart, if_neg hhead]
  split_ifs with hor hlast hlast
  · rfl
  · rcases hor with hnil | hslash
    · exact absurd hnil hpath
    · exact absurd hslash hlast
  · exact absurd (Or.inr hlast) hor
  · rfl

theorem joinPart_ne_nil {path part : List Byte} (hpath : path ≠ []) (hpart : slash ∉ part) :
    joinPart path part ≠ [] := by
  rw [joinPart_eq hpath hpart]
  exact List.append_ne_nil_of_left_ne_nil hpath _

/-- Nonempty components are appended with a slash before each of them, but for the first one if
there is a slash already. -/
theorem joinPath_eq {path : List Byte} {parts : List (List Byte)} (hpath : path ≠ [])
    (hne : parts ≠ []) (hparts : ∀ part ∈ parts, part ≠ [] ∧ slash ∉ part) :
    joinPath path parts = path ++ (List.replicate (if path.getLast? = some slash then 0 else 1)
      slash ++ [slash].intercalate parts) := by
  induction parts generalizing path with
  | nil => exact absurd rfl hne
  | cons part parts ih =>
    rw [List.forall_mem_cons] at hparts
    have hstep : joinPart path part = path ++
        (List.replicate (if path.getLast? = some slash then 0 else 1) slash ++ part) := by
      rw [joinPart_eq hpath hparts.1.2]
      split_ifs
      · rfl
      · rfl
    change joinPath (joinPart path part) parts = _
    cases parts with
    | nil => rw [List.intercalate_singleton, ← hstep]; rfl
    | cons part' parts =>
      have hlast : (joinPart path part).getLast? ≠ some slash := by
        rw [hstep, List.getLast?_append, List.getLast?_append,
          List.getLast?_eq_some_getLast hparts.1.1]
        intro hslash
        exact hparts.1.2 (Option.some.inj hslash ▸ List.getLast_mem hparts.1.1)
      rw [ih (joinPart_ne_nil hpath hparts.1.2) (List.cons_ne_nil part' parts) hparts.2,
        if_neg hlast, hstep, List.intercalate_cons_cons]
      simp only [List.append_assoc, List.replicate_one]

/-- The components of a path that does not end with a slash end as the path does. -/
theorem exists_pathParts_eq {path : List Byte} {b : Byte} (hlast : path.getLast? = some b)
    (hb : b ≠ slash) : ∃ parts part, pathParts path = parts ++ [part] ∧ part.getLast? = some b := by
  obtain ⟨parts, part, hsplit⟩ : ∃ parts part, path.splitOn slash = parts ++ [part] :=
    ⟨_, _, (List.dropLast_append_getLast (List.splitOn_ne_nil slash path)).symm⟩
  have hpath : [slash].intercalate (path.splitOn slash) = path := List.intercalate_splitOn slash
  rw [hsplit] at hpath
  by_cases hnil : part = []
  · -- the path would be empty or end with a slash
    subst hnil
    cases parts with
    | nil =>
      rw [← hpath] at hlast
      cases hlast
    | cons first rest =>
      rw [Lines.intercalate_append (List.cons_ne_nil first rest) (List.cons_ne_nil [] []),
        List.intercalate_singleton] at hpath
      rw [← hpath, List.getLast?_append] at hlast
      exact absurd (Option.some.inj hlast).symm hb
  · rw [← hpath, Lines.getLast?_intercalate hnil] at hlast
    refine ⟨parts.filter (· ≠ []), part, ?_, hlast⟩
    rw [pathParts, hsplit, List.filter_append, List.filter_cons_of_pos (by simpa using hnil)]
    rfl

theorem validUtf8_intercalate (parts : List (List Byte)) :
    validUtf8 ([slash].intercalate parts) = parts.all validUtf8 := by
  induction parts with
  | nil => rfl
  | cons part parts ih =>
    cases parts with
    | nil => simp
    | cons part' parts =>
      rw [List.intercalate_cons_cons, List.append_assoc, List.all_cons, ← ih]
      exact validUtf8_append_cons (by decide) part _

theorem validUtf8_of_mem_pathParts {path part : List Byte} (hpath : validUtf8 path = true)
    (h : part ∈ pathParts path) : validUtf8 part = true := by
  have hall := validUtf8_intercalate (path.splitOn slash)
  rw [List.intercalate_splitOn, hpath] at hall
  exact List.all_eq_true.1 hall.symm part (List.mem_of_mem_filter h)

theorem validUtf8_joinPart {path part : List Byte} (hpath : path ≠ []) (hslash : slash ∉ part)
    (hpart : validUtf8 part = true) : validUtf8 (joinPart path part) = validUtf8 path := by
  rw [joinPart_eq hpath hslash]
  split_ifs with hlast
  · obtain ⟨before, rfl⟩ := List.getLast?_eq_some_iff.1 hlast
    have hends : validUtf8 (before ++ [slash]) = validUtf8 before := by
      rw [validUtf8_append_cons (by decide)]
      exact Bool.and_true _
    rw [List.append_assoc, List.singleton_append, validUtf8_append_cons (by decide), hpart, hends,
      Bool.and_true]
  · rw [validUtf8_append_cons (by decide), hpart, Bool.and_true]

/-- The components of a decoded path do not matter for what can be encoded. -/
theorem validUtf8_joinPath {path : List Byte} {parts : List (List Byte)} (hpath : path ≠ [])
    (hslash : ∀ part ∈ parts, slash ∉ part) (hparts : ∀ part ∈ parts, validUtf8 part = true) :
    validUtf8 (joinPath path parts) = validUtf8 path := by
  induction parts generalizing path with
  | nil => rfl
  | cons part parts ih =>
    rw [List.forall_mem_cons] at hslash hparts
    rw [← validUtf8_joinPart hpath hslash.1 hparts.1]
    exact ih (joinPart_ne_nil hpath hslash.1) hslash.2 hparts.2

/-! ### Repeated slashes -/

/-- The path with one slash for each sequence of them. -/
def collapse : List Byte → List Byte
  | [] => []
  | b :: bytes =>
    if b = slash ∧ bytes.head? = some slash then collapse bytes else b :: collapse bytes

theorem collapse_append_slash_slash (before after : List Byte) :
    collapse (before ++ slash :: slash :: after) = collapse (before ++ slash :: after) := by
  induction before with
  | nil => exact if_pos ⟨rfl, rfl⟩
  | cons b before ih =>
    have hhead : (before ++ slash :: slash :: after).head? =
        (before ++ slash :: after).head? := by
      cases before <;> rfl
    rw [List.cons_append, List.cons_append, collapse, collapse, hhead, ih]

theorem collapse_append_replicate (n : ℕ) (before after : List Byte) :
    collapse (before ++ slash :: (List.replicate n slash ++ after)) =
      collapse (before ++ slash :: after) := by
  induction n with
  | zero => rfl
  | succ n ih =>
    rw [List.replicate_succ, List.cons_append, collapse_append_slash_slash, ih]

/-! ### The decision -/

section Decision

variable (present : List Byte → Bool) (root : Root)

theorem Root.path_ne_nil : root.path ≠ [] := by
  intro hnil
  have habsolute := root.absolute
  rw [hnil] at habsolute
  cases habsolute

/-- The file under the root for a path that is relocated. -/
def relocation (raw : List Byte) : Option (List Byte) :=
  if validUtf8 raw = true ∧ present raw = false then
    longestExistingSuffix present root (pathParts raw)
  else none

/-- What stands for a path in the end. -/
def relocated (raw : List Byte) : List Byte :=
  ((relocation present root raw).map (replacement root raw)).getD raw

/-- What stands for a path after some of the paths have been looked at. -/
def current (done : List (List Byte)) (path : List Byte) : List Byte :=
  if path ∈ done then relocated present root path else path

variable {present root}

theorem relocated_of_eq_none {raw : List Byte} (h : relocation present root raw = none) :
    relocated present root raw = raw := by
  rw [relocated, h]
  rfl

theorem relocated_of_eq_some {raw found : List Byte}
    (h : relocation present root raw = some found) :
    relocated present root raw = replacement root raw found := by
  rw [relocated, h]
  rfl

/-- The file is at the longest tail of the path that exists under the root. -/
theorem longestExistingSuffix_eq_some {parts : List (List Byte)} {found : List Byte}
    (h : longestExistingSuffix present root parts = some found) :
    present found = true ∧ ∃ tail, tail <:+ parts ∧ tail ≠ [] ∧
      found = joinPath root.path tail ∧
      ∀ longer, longer <:+ parts → tail.length < longer.length →
        present (joinPath root.path longer) = false := by
  induction parts with
  | nil => cases h
  | cons part parts ih =>
    rw [longestExistingSuffix] at h
    split_ifs at h with hpresent
    · obtain rfl := Option.some.inj h
      refine ⟨hpresent, part :: parts, List.suffix_rfl, List.cons_ne_nil part parts, rfl, ?_⟩
      intro longer hlonger hlength
      exact absurd hlonger.length_le (not_le.2 hlength)
    · obtain ⟨hfound, tail, htail, hne, hjoin, hlongest⟩ := ih h
      refine ⟨hfound, tail, htail.trans (List.suffix_cons part parts), hne, hjoin, ?_⟩
      intro longer hlonger hlength
      rcases List.suffix_cons_iff.1 hlonger with rfl | hlonger
      · exact Bool.eq_false_iff.2 hpresent
      · exact hlongest longer hlonger hlength

/-- What is known of a file that was found. -/
theorem relocation_eq_some {raw found : List Byte} (h : relocation present root raw = some found) :
    present raw = false ∧ present found = true ∧
      validUtf8 found = validUtf8 root.path ∧
      ∃ n tail, tail <:+ pathParts raw ∧ tail ≠ [] ∧
        found = root.path ++ (List.replicate n slash ++ [slash].intercalate tail) ∧
        (root.path.getLast? = some slash ∨ n ≠ 0) := by
  unfold relocation at h
  split_ifs at h with hraw
  obtain ⟨hfound, tail, htail, hne, rfl, -⟩ := longestExistingSuffix_eq_some h
  have hparts : ∀ part ∈ tail, part ≠ [] ∧ slash ∉ part := fun part hpart =>
    ne_nil_of_mem_pathParts (htail.subset hpart)
  have hvalid : ∀ part ∈ tail, validUtf8 part = true := fun part hpart =>
    validUtf8_of_mem_pathParts hraw.1 (htail.subset hpart)
  refine ⟨hraw.2, hfound, validUtf8_joinPath root.path_ne_nil (fun part hpart =>
    (hparts part hpart).2) hvalid, _, tail, htail, hne, joinPath_eq root.path_ne_nil hne hparts, ?_⟩
  split_ifs with hlast
  · exact Or.inl hlast
  · exact Or.inr one_ne_zero

/-- The replacement keeps the length, if the file's path is not longer. -/
theorem length_replacement {raw rest : List Byte}
    (h : (root.path ++ rest).length ≤ raw.length) :
    (replacement root raw (root.path ++ rest)).length = raw.length := by
  rw [replacement, if_pos h, List.drop_left, List.length_append, List.length_append,
    List.length_replicate]
  rw [List.length_append] at h ⊢
  omega

/-- The replacement is the file's path up to repeated slashes. -/
theorem collapse_replacement {raw rest : List Byte}
    (h : root.path.getLast? = some slash ∨ rest.head? = some slash) :
    collapse (replacement root raw (root.path ++ rest)) = collapse (root.path ++ rest) := by
  unfold replacement
  split_ifs with hlength
  · rw [List.drop_left]
    rcases h with hlast | hhead
    · obtain ⟨before, hbefore⟩ := List.getLast?_eq_some_iff.1 hlast
      rw [hbefore]
      simp only [List.append_assoc, List.singleton_append]
      exact collapse_append_replicate _ before rest
    · obtain ⟨after, rfl⟩ := List.head?_eq_some_iff.1 hhead
      rw [List.append_assoc, List.append_cons (List.replicate _ slash), ← List.replicate_succ',
        List.replicate_succ, List.cons_append]
      exact collapse_append_replicate _ root.path after
  · rfl

/-! ### What stands for a path -/

/-- The root, slashes, and the last components of the path. -/
theorem exists_relocated_eq {raw found : List Byte} (h : relocation present root raw = some found) :
    ∃ n tail, tail <:+ pathParts raw ∧ tail ≠ [] ∧
      relocated present root raw =
        root.path ++ (List.replicate n slash ++ [slash].intercalate tail) ∧
      (root.path.getLast? = some slash ∨ n ≠ 0) := by
  obtain ⟨-, -, -, n, tail, htail, hne, rfl, hn⟩ := relocation_eq_some h
  rw [relocated_of_eq_some h, replacement]
  split_ifs
  · generalize raw.length - _ = pad
    refine ⟨pad + n, tail, htail, hne, ?_, hn.imp_right fun hpos => by omega⟩
    rw [List.drop_left, List.replicate_add, List.append_assoc, List.append_assoc]
  · exact ⟨n, tail, htail, hne, rfl, hn⟩

theorem length_le_length_relocated (raw : List Byte) :
    raw.length ≤ (relocated present root raw).length := by
  cases h : relocation present root raw with
  | none => rw [relocated_of_eq_none h]
  | some found =>
    obtain ⟨-, -, -, n, tail, -, -, rfl, -⟩ := relocation_eq_some h
    rw [relocated_of_eq_some h]
    rcases le_or_gt (root.path ++ (List.replicate n slash ++ [slash].intercalate tail)).length
      raw.length with hfits | hlonger
    · rw [length_replacement hfits]
    · rw [replacement, if_neg (not_le.2 hlonger)]
      exact hlonger.le

theorem head?_relocated {raw : List Byte} (h : raw.head? = some slash) :
    (relocated present root raw).head? = some slash := by
  cases hfound : relocation present root raw with
  | none => rw [relocated_of_eq_none hfound, h]
  | some found =>
    obtain ⟨n, tail, -, -, heq, -⟩ := exists_relocated_eq hfound
    rw [heq, List.head?_append, root.absolute]
    rfl

/-- What stands for a path ends as the path does, unless this is with a slash. -/
theorem getLast?_relocated {raw : List Byte} {b : Byte} (hlast : raw.getLast? = some b)
    (hb : b ≠ slash) : (relocated present root raw).getLast? = some b := by
  cases hfound : relocation present root raw with
  | none => rw [relocated_of_eq_none hfound, hlast]
  | some found =>
    obtain ⟨n, tail, ⟨before, htail⟩, hne, heq, -⟩ := exists_relocated_eq hfound
    obtain ⟨parts, part, hparts, hpart⟩ := exists_pathParts_eq hlast hb
    -- the last component is among those that are found under the root
    rw [hparts, ← List.dropLast_append_getLast hne, ← List.append_assoc] at htail
    obtain rfl : tail.getLast hne = part :=
      List.singleton_injective (List.append_inj' htail rfl).2
    have hnil : tail.getLast hne ≠ [] := by
      intro hnil
      rw [hnil] at hpart
      cases hpart
    rw [heq, ← List.dropLast_append_getLast hne, List.getLast?_append, List.getLast?_append,
      Lines.getLast?_intercalate hnil, hpart]
    rfl

/-- Words without a slash occur in what stands for a path only if they occur in the path or in
the root. -/
theorem infix_of_infix_relocated {raw word : List Byte} (hslash : slash ∉ word) (hword : word ≠ [])
    (h : word <:+: relocated present root raw) : word <:+: root.path ∨ word <:+: raw := by
  cases hfound : relocation present root raw with
  | none =>
    rw [relocated_of_eq_none hfound] at h
    exact Or.inr h
  | some found =>
    obtain ⟨n, tail, htail, -, heq, hn⟩ := exists_relocated_eq hfound
    rw [heq] at h
    have hslashes (k : ℕ) (hk : word <:+: List.replicate k slash ++ [slash].intercalate tail) :
        word <:+: raw := by
      induction k with
      | zero =>
        obtain ⟨part, hpart, hwithin⟩ := Apart.exists_infix_of_infix_intercalate hslash hword hk
        exact hwithin.trans
          (Lines.isInfix_of_mem_splitOn (List.mem_of_mem_filter (htail.subset hpart)))
      | succ k ih =>
        have hk : word <:+: [] ++ slash :: (List.replicate k slash ++ [slash].intercalate tail) :=
          hk
        rcases Apart.infix_or_infix hslash hk with hnil | hrest
        · exact absurd (List.infix_nil.1 hnil) hword
        · exact ih hrest
    cases n with
    | zero =>
      obtain ⟨before, hbefore⟩ := List.getLast?_eq_some_iff.1 (hn.resolve_right (by simp))
      rw [hbefore, List.append_assoc] at h
      rw [hbefore]
      rcases Apart.infix_or_infix hslash h with hroot | hrest
      · exact Or.inl (hroot.trans (List.prefix_append before [slash]).isInfix)
      · exact Or.inr (hslashes 0 hrest)
    | succ n =>
      rcases Apart.infix_or_infix hslash h with hroot | hrest
      · exact Or.inl hroot
      · exact Or.inr (hslashes n hrest)

theorem newline_notMem_relocated {raw : List Byte} (hroot : newline ∉ root.path)
    (hraw : newline ∉ raw) : newline ∉ relocated present root raw := by
  intro hmem
  obtain ⟨before, after, heq⟩ := List.append_of_mem hmem
  have hwithin : [newline] <:+: relocated present root raw := ⟨before, after, by simp [heq]⟩
  rcases infix_of_infix_relocated (by decide) (List.cons_ne_nil _ _) hwithin with h | h
  · exact hroot (h.subset List.mem_cons_self)
  · exact hraw (h.subset List.mem_cons_self)

variable (present root)

/-- One path: it is replaced in the whole content, if it is relocated. The assertion always
holds, and all of the file's path can be encoded but for the root. -/
theorem relocatePath_eq (state : ℕ × List Byte) (raw : List Byte) :
    relocatePath present root state raw =
      match relocation present root raw with
      | none => .ok state
      | some found =>
        if validUtf8 root.path = true then
          .ok (state.1 + 1, substitute raw (replacement root raw found) state.2)
        else .error .unicodeEncode := by
  cases hfound : relocation present root raw with
  | none =>
    change relocatePath present root state raw = .ok state
    unfold relocatePath
    split_ifs with hvalid hpresent
    · rfl
    · rfl
    · have hraw : validUtf8 raw = true ∧ present raw = false :=
        ⟨by simpa using hvalid, by simpa using hpresent⟩
      rw [relocation, if_pos hraw] at hfound
      rw [hfound]
  | some found =>
    obtain ⟨-, -, hencode, n, tail, -, -, heq, -⟩ := relocation_eq_some hfound
    unfold relocation at hfound
    split_ifs at hfound with hraw
    have hassert : raw.length < found.length ∨
        (replacement root raw found).length = raw.length := by
      rcases lt_or_ge raw.length found.length with hlonger | hfits
      · exact Or.inl hlonger
      · subst heq
        exact Or.inr (length_replacement hfits)
    unfold relocatePath
    rw [if_neg (by simp [hraw.1]), if_neg (by simp [hraw.2]), hfound]
    simp only [hencode, if_pos hassert]
    cases validUtf8 root.path <;> rfl

variable {present root}

/-- One path that fits does not move anything. -/
theorem length_relocatePath {raw : List Byte} (hraw : raw ≠ [])
    (hfits : ∀ found, relocation present root raw = some found → found.length ≤ raw.length)
    {state state' : ℕ × List Byte} (h : relocatePath present root state raw = .ok state') :
    state'.2.length = state.2.length := by
  rw [relocatePath_eq] at h
  cases hfound : relocation present root raw with
  | none =>
    rw [hfound] at h
    obtain rfl := Except.ok.inj h
    rfl
  | some found =>
    rw [hfound] at h
    simp only at h
    split_ifs at h with hroot
    obtain rfl := Except.ok.inj h
    obtain ⟨-, -, -, n, tail, -, -, rfl, -⟩ := relocation_eq_some hfound
    exact length_substitute hraw (length_replacement (hfits _ hfound)) state.2

theorem length_foldlM_relocatePath {paths : List (List Byte)} (hpaths : ∀ raw ∈ paths, raw ≠ [])
    (hfits : ∀ raw ∈ paths, ∀ found, relocation present root raw = some found →
      found.length ≤ raw.length)
    {state state' : ℕ × List Byte}
    (h : paths.foldlM (relocatePath present root) state = .ok state') :
    state'.2.length = state.2.length := by
  induction paths generalizing state with
  | nil =>
    obtain rfl := Except.ok.inj h
    rfl
  | cons raw paths ih =>
    rw [List.forall_mem_cons] at hpaths hfits
    rw [List.foldlM_cons] at h
    cases hstep : relocatePath present root state raw with
    | error e =>
      rw [hstep] at h
      cases h
    | ok next =>
      rw [hstep] at h
      exact (ih hpaths.2 hfits.2 h).trans (length_relocatePath hpaths.1 hfits.1 hstep)

end Decision

end SagePTE.Tracer
