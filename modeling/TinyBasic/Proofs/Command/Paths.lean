import Mathlib.Data.List.DropRight
import TinyBasic.Path

/-!
# Paths and their pieces

A path is known by its pieces: its text is the pieces with slashes between them
(`Path.intercalate_pieces`), and any pieces without slashes are the pieces of a path
(`Path.pieces_intercalate`).  What `Path.sibling` writes is therefore stated on pieces
(`Path.pieces_sibling`): only the last piece is replaced, and idle pieces in front of it are left
out.  So the path of the same name in the same directory resembles the path itself
(`Path.resembles_sibling`).
-/

namespace TinyBasic.Path

variable {p : Path} {first last name : String} {inner : List String}

/-! ### Splitting a text at its slashes -/

theorem split_eq_splitOn (cs : List Char) : split cs = cs.splitOn '/' := by
  induction cs with
  | nil => rfl
  | cons c cs ih =>
    rw [split, ih, List.splitOn_cons_eq_if_modifyHead]
    by_cases hc : c = '/'
    · simp [hc]
    · simp only [hc, if_false, beq_iff_eq]
      cases h : cs.splitOn '/' with
      | nil => exact absurd h (List.splitOn_ne_nil '/' cs)
      | cons q qs => rfl

theorem pieces_ne_nil (p : Path) : p.pieces ≠ [] := by
  rw [pieces, split_eq_splitOn]
  exact mt List.map_eq_nil_iff.1 (List.splitOn_ne_nil _ _)

/-- A slash divides a path in two. -/
theorem pieces_append_slash (a b : String) : pieces ⟨a ++ "/" ++ b⟩ = pieces ⟨a⟩ ++ pieces ⟨b⟩ := by
  have hchars : (a ++ "/" ++ b).toList = a.toList ++ '/' :: b.toList := by simp
  simp only [pieces, split_eq_splitOn]
  rw [hchars, List.splitOn_append_cons_self, List.map_append]

/-- A text without a slash is a single piece. -/
theorem pieces_of_notMem (h : '/' ∉ name.toList) : pieces ⟨name⟩ = [name] := by
  have hsplit : name.toList.splitOn '/' = [name.toList] := by
    rw [List.splitOn_eq_splitOnP]
    refine List.splitOnP_eq_singleton fun c hc => ?_
    rw [beq_eq_false_iff_ne]
    rintro rfl
    exact h hc
  rw [pieces, split_eq_splitOn, hsplit, List.map_singleton, String.ofList_toList]

/-- **Pieces without slashes are the pieces of a path.** -/
theorem pieces_intercalate {qs : List String} (hne : qs ≠ []) (h : ∀ q ∈ qs, '/' ∉ q.toList) :
    pieces ⟨"/".intercalate qs⟩ = qs := by
  induction qs with
  | nil => exact absurd rfl hne
  | cons q qs ih =>
    have hq := pieces_of_notMem (h q List.mem_cons_self)
    by_cases hqs : qs = []
    · rw [hqs, String.intercalate_singleton, hq]
    · rw [String.intercalate_cons_of_ne_nil hqs, pieces_append_slash, hq,
        ih hqs fun r hr => h r (List.mem_cons_of_mem q hr)]
      rfl

/-- **A path is its pieces** with slashes between them. -/
theorem intercalate_pieces (p : Path) : "/".intercalate p.pieces = p.text := by
  refine String.toList_inj.1 ?_
  rw [String.toList_intercalate, pieces, split_eq_splitOn, List.map_map]
  have hmap : String.toList ∘ String.ofList = id := funext fun cs => String.toList_ofList
  rw [hmap, List.map_id]
  exact List.intercalate_splitOn '/'

theorem slash_notMem_of_mem_split {cs q : List Char} (h : q ∈ split cs) : '/' ∉ q := by
  fun_induction split cs generalizing q with
  | case1 => simp_all
  | case2 cs ih =>
    rcases List.mem_cons.1 h with rfl | h
    · exact List.not_mem_nil
    · exact ih h
  | case3 c cs hc hnil => exact absurd (split_eq_splitOn cs ▸ hnil) (List.splitOn_ne_nil '/' cs)
  | case4 c cs hc r rs hcons ih =>
    rcases List.mem_cons.1 h with rfl | h
    · simpa [Ne.symm hc] using ih (hcons ▸ List.mem_cons_self)
    · exact ih (hcons ▸ List.mem_cons_of_mem r h)

theorem slash_notMem_of_mem_pieces {q : String} (h : q ∈ p.pieces) : '/' ∉ q.toList := by
  obtain ⟨cs, hcs, rfl⟩ := List.mem_map.1 h
  rw [String.toList_ofList]
  exact slash_notMem_of_mem_split hcs

theorem head?_ne_slash {q : String} (h : '/' ∉ q.toList) : q.toList.head? ≠ some '/' :=
  fun hhead => h (List.mem_of_mem_head? hhead)

/-- A path is absolute if an empty piece comes first and is not all. -/
theorem isAbsolute_iff (p : Path) :
    p.isAbsolute = true ↔ p.pieces.head? = some "" ∧ p.pieces.tail ≠ [] := by
  have htext := intercalate_pieces p
  have hfree := fun q (h : q ∈ p.pieces) => slash_notMem_of_mem_pieces h
  cases hpieces : p.pieces with
  | nil => exact absurd hpieces (pieces_ne_nil p)
  | cons q qs =>
    rw [hpieces] at htext hfree
    have hq := head?_ne_slash (hfree q List.mem_cons_self)
    rw [isAbsolute, ← htext, List.head?_cons, List.tail_cons, beq_iff_eq]
    by_cases hqs : qs = []
    · simp [hqs, hq]
    · rw [String.intercalate_cons_of_ne_nil hqs]
      by_cases hempty : q = ""
      · simp [hempty, hqs]
      · have hne : q.toList ≠ [] := mt String.toList_eq_nil_iff.1 hempty
        simp [hempty, List.head?_append_of_ne_nil _ hne, hq]

/-! ### Idle pieces -/

theorem trim_append_of_isName (hname : isName last = true) :
    trim (inner ++ [last]) = inner ++ [last] := by
  have hidle : ¬ isIdle last = true := by simp_all [isName]
  exact List.rdropWhile_concat_neg isIdle inner last hidle

/-- Trimming takes nothing away that counts in a comparison. -/
theorem filter_trim (qs : List String) : (trim qs).filter (!isIdle ·) = qs.filter (!isIdle ·) := by
  induction qs using List.reverseRecOn with
  | nil => rfl
  | append_singleton qs q ih =>
    by_cases hq : isIdle q = true
    · have htrim : trim (qs ++ [q]) = trim qs := List.rdropWhile_concat_pos isIdle qs q hq
      rw [htrim, ih]
      simp [hq]
    · have htrim : trim (qs ++ [q]) = qs ++ [q] := List.rdropWhile_concat_neg isIdle qs q hq
      rw [htrim]

theorem isIdle_getLast_trim {q : String} (h : (trim inner).getLast? = some q) :
    isIdle q = false := by
  have hne : trim inner ≠ [] := by
    rintro hnil
    simp [hnil] at h
  have hlast := List.rdropWhile_last_not isIdle inner hne
  rw [List.getLast?_eq_some_getLast hne, Option.some_inj] at h
  rw [← h]
  exact Bool.not_eq_true _ ▸ hlast

/-! ### Siblings -/

/-- The directory of a path whose last piece is a name is written with the pieces in front of it. -/
theorem directory_of_pieces (hp : p.pieces = first :: (inner ++ [last]))
    (hname : isName last = true) :
    p.directory =
      if first = "" ∧ trim inner = [] then "/" else "/".intercalate (first :: trim inner) := by
  simp only [directory, hp, trim_append_of_isName hname, List.getLast?_concat, hname, if_true,
    List.dropLast_concat]

/-- Trimmed pieces have no slash after them. -/
theorem getLast?_ne_slash {d : String} (h : pieces ⟨d⟩ = first :: trim inner) :
    d.toList.getLast? ≠ some '/' := by
  intro hslash
  obtain ⟨cs, hcs⟩ := List.getLast?_eq_some_iff.1 hslash
  have hd : d = String.ofList cs ++ "/" ++ "" := by
    refine String.toList_inj.1 ?_
    simp [hcs]
  have hnone : pieces ⟨""⟩ = [""] := rfl
  rw [hd, pieces_append_slash, hnone] at h
  rcases List.eq_nil_or_concat' (trim inner) with hnil | ⟨init, q, hconcat⟩
  · rw [hnil, ← List.nil_append [first]] at h
    exact pieces_ne_nil _ (List.append_inj' h rfl).1
  · have hidle : isIdle q = false :=
      isIdle_getLast_trim ((congrArg List.getLast? hconcat).trans List.getLast?_concat)
    rw [hconcat, ← List.cons_append] at h
    obtain rfl : "" = q := by simpa using (List.append_inj' h rfl).2
    exact absurd hidle (by decide)

/-- **A sibling has another last piece**, and no idle pieces in front of it. -/
theorem pieces_sibling (hp : p.pieces = first :: (inner ++ [last])) (hlast : isName last = true)
    (hname : '/' ∉ name.toList) : (p.sibling name).pieces = first :: (trim inner ++ [name]) := by
  have hdirectory := directory_of_pieces hp hlast
  have hpieces := pieces_of_notMem hname
  rw [sibling]
  by_cases hroot : first = "" ∧ trim inner = []
  · -- A file of the root directory.
    rw [if_pos hroot] at hdirectory
    rw [hdirectory, if_pos (by decide), hroot.1, hroot.2]
    rw [show "/" = "" ++ "/" from rfl, pieces_append_slash, hpieces]
    rfl
  · rw [if_neg hroot] at hdirectory
    have hfree : ∀ q ∈ first :: trim inner, '/' ∉ q.toList := by
      intro q hq
      refine slash_notMem_of_mem_pieces (p := p) ?_
      rw [hp]
      rcases List.mem_cons.1 hq with rfl | hq
      · exact List.mem_cons_self
      · have hinit : trim inner <+: inner := List.rdropWhile_prefix isIdle inner
        exact List.mem_cons_of_mem _ (List.mem_append_left _ (hinit.subset hq))
    have habove : pieces ⟨p.directory⟩ = first :: trim inner := by
      rw [hdirectory]
      exact pieces_intercalate (List.cons_ne_nil _ _) hfree
    have hopen : ¬ (p.directory = "" ∨ p.directory.toList.getLast? = some '/') := by
      rintro (hempty | hslash)
      · rw [hempty, pieces_of_notMem List.not_mem_nil] at habove
        exact hroot ⟨(List.cons.inj habove).1.symm, (List.cons.inj habove).2.symm⟩
      · exact getLast?_ne_slash habove hslash
    rw [if_neg hopen, pieces_append_slash, habove, hpieces]
    rfl

/-- The sibling of a single name is a single name. -/
theorem sibling_of_single (hp : p.pieces = [last]) (hlast : isName last = true) :
    p.sibling name = ⟨name⟩ := by
  have htrim : trim [] = [] := rfl
  have hdirectory : p.directory = "" := by
    simp [directory, hp, htrim, hlast]
  rw [sibling, hdirectory, if_pos (Or.inl rfl), String.empty_append]

theorem components_congr {q : Path} (hhead : p.pieces.head? = q.pieces.head?)
    (htail : p.pieces.tail = [] ↔ q.pieces.tail = [])
    (hcounted : p.pieces.filter (!isIdle ·) = q.pieces.filter (!isIdle ·)) :
    p.components = q.components := by
  have habsolute : p.isAbsolute = q.isAbsolute := by
    rw [Bool.eq_iff_iff, isAbsolute_iff, isAbsolute_iff, hhead, ne_eq, htail]
  rw [components, components, hhead, hcounted, habsolute]

theorem getLast?_pieces_sibling (hp : p.pieces = inner ++ [last]) (hlast : isName last = true)
    (hname : '/' ∉ name.toList) : (p.sibling name).pieces.getLast? = some name := by
  cases inner with
  | nil => rw [sibling_of_single hp hlast, pieces_of_notMem hname, List.getLast?_singleton]
  | cons first inner =>
    rw [pieces_sibling hp hlast hname, ← List.cons_append, List.getLast?_concat]

/-- **The path of the same name in the same directory resembles the path.** -/
theorem resembles_sibling (hp : p.pieces = inner ++ [last]) (hlast : isName last = true) :
    (p.sibling last).resembles p = true := by
  rw [resembles, beq_iff_eq]
  cases inner with
  | nil =>
    rw [sibling_of_single hp hlast]
    have htext : p.text = last := by
      rw [← intercalate_pieces, hp]
      exact String.intercalate_singleton
    rw [← htext]
  | cons first inner =>
    have hfree : '/' ∉ last.toList :=
      slash_notMem_of_mem_pieces (p := p) (by rw [hp]; simp)
    have hsibling := pieces_sibling hp hlast hfree
    refine components_congr ?_ ?_ ?_ <;> rw [hsibling, hp, List.cons_append]
    · rfl
    · simp
    · simp only [List.filter_cons, List.filter_append, filter_trim]

end TinyBasic.Path
