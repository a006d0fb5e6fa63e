import EventQuery.Command.Batch
import Mathlib.Data.List.Basic

/-!
# The lines of a batch

A batch is read line by line, and a query is reported under the number of
its line. The physical lines of a text are the stretches between its line
feeds (`Text.IsLine`). An empty stretch at the end is not counted as a line,
but it would be skipped anyway. So the queries of a text are those of all its
pieces, by number (`batchQueries_eq`), and the pieces of two texts with a line
feed between them are the pieces of the one and those of the other
(`Text.pieces_append`).

From this follow the laws of `batchQueries_laws`: texts can be read apart and
the results put together, and lines that are skipped only move the numbers of
those behind them.
-/

namespace EventQuery

/-! ## Pieces -/

namespace Text

theorem pieces_ne_nil (s : List Char) : pieces s ≠ [] := by
  cases s with
  | nil => simp [pieces]
  | cons c s =>
      rw [pieces]
      split
      · exact List.cons_ne_nil _ _
      · split <;> exact List.cons_ne_nil _ _

theorem pieces_newline (s : List Char) : pieces ('\n' :: s) = [] :: pieces s := rfl

theorem pieces_char {c : Char} (hc : c ≠ '\n') {s piece : List Char} {rest : List (List Char)}
    (h : pieces s = piece :: rest) : pieces (c :: s) = (c :: piece) :: rest := by
  rw [pieces, if_neg hc, h]

theorem pieces_eq_splitOn (s : List Char) : pieces s = s.splitOn '\n' := by
  induction s with
  | nil => rfl
  | cons c s ih =>
      obtain ⟨piece, rest, hs⟩ := List.exists_cons_of_ne_nil (pieces_ne_nil s)
      rw [List.splitOn, List.splitOnP_cons_eq_if_modifyHead, ← List.splitOn, ← ih]
      by_cases hc : c = '\n'
      · rw [hc]
        rfl
      · rw [pieces_char hc hs, hs]
        simp [hc]

/-- The pieces of two texts with a line feed between them. -/
theorem pieces_append (s t : List Char) : pieces (s ++ '\n' :: t) = pieces s ++ pieces t := by
  simp only [pieces_eq_splitOn]
  exact List.splitOnP_append_cons s t (by decide)

theorem length_pieces (s : List Char) : (pieces s).length = s.count '\n' + 1 := by
  induction s with
  | nil => rfl
  | cons c s ih =>
      by_cases hc : c = '\n'
      · rw [hc, pieces_newline, List.length_cons, List.count_cons_self, ih]
      · obtain ⟨piece, rest, hs⟩ := List.exists_cons_of_ne_nil (pieces_ne_nil s)
        rw [List.count_cons_of_ne hc, ← ih, pieces_char hc hs, hs]
        rfl

/-- The `n`-th physical line of a text: a stretch without a line feed, from
the start of the text or a line feed to a line feed or the end of the text. -/
def IsLine (text : List Char) (n : Nat) (line : List Char) : Prop :=
  '\n' ∉ line ∧ ∃ before after, text = before ++ line ++ after ∧
    (before = [] ∨ before.getLast? = some '\n') ∧ (after = [] ∨ after.head? = some '\n') ∧
    n = before.count '\n' + 1

theorem pieces_of_not_mem {line : List Char} (h : '\n' ∉ line) : pieces line = [line] := by
  have hsplit : (['\n'].intercalate [line]).splitOn '\n' = [line] :=
    List.splitOn_intercalate _ (List.forall_mem_singleton.mpr h) (List.cons_ne_nil _ _)
  rwa [List.intercalate_singleton, ← pieces_eq_splitOn] at hsplit

theorem getElem?_pieces_of_isLine {text line : List Char} {n : Nat} (h : IsLine text n line) :
    ∃ i, n = i + 1 ∧ (pieces text)[i]? = some line := by
  obtain ⟨hline, before, after, rfl, hbefore, hafter, rfl⟩ := h
  refine ⟨_, rfl, ?_⟩
  -- what follows the line makes further pieces
  have hrest : ∃ rest, pieces (line ++ after) = line :: rest := by
    rcases hafter with rfl | hafter
    · exact ⟨[], by rw [List.append_nil, pieces_of_not_mem hline]⟩
    · obtain ⟨after, rfl⟩ := List.head?_eq_some_iff.mp hafter
      exact ⟨_, by rw [pieces_append, pieces_of_not_mem hline]; rfl⟩
  obtain ⟨rest, hrest⟩ := hrest
  rw [List.append_assoc]
  rcases hbefore with rfl | hbefore
  · rw [List.nil_append, hrest]
    rfl
  · obtain ⟨before, rfl⟩ := List.getLast?_eq_some_iff.mp hbefore
    have hcount : (before ++ ['\n']).count '\n' = (pieces before).length := by
      rw [List.count_append, length_pieces]
      rfl
    rw [List.append_assoc, List.singleton_append, pieces_append, hcount, hrest,
      List.getElem?_append_right (Nat.le_refl _), Nat.sub_self]
    rfl

/-- A character in front of a line that is not the first. -/
theorem IsLine.cons {text line : List Char} {i : Nat} (h : IsLine text (i + 1) line) (c : Char)
    (hc : c = '\n' ∨ i ≠ 0) : IsLine (c :: text) (i + [c].count '\n' + 1) line := by
  obtain ⟨hline, before, after, rfl, hbefore, hafter, hcount⟩ := h
  refine ⟨hline, c :: before, after, rfl, .inr ?_, hafter, ?_⟩
  · rcases hbefore with rfl | hbefore
    · obtain rfl := hc.resolve_right fun hi => hi (by simpa using hcount)
      rfl
    · rw [List.getLast?_cons, hbefore]
      rfl
  · rw [List.count_singleton, List.count_cons]
    omega

/-- A character in front of the first line. -/
theorem IsLine.cons_first {text line : List Char} (h : IsLine text 1 line) {c : Char}
    (hc : c ≠ '\n') : IsLine (c :: text) 1 (c :: line) := by
  obtain ⟨hline, before, after, rfl, hbefore, hafter, hcount⟩ := h
  have hnil : before = [] := by
    refine hbefore.resolve_right fun hlast => ?_
    have hpos : 0 < before.count '\n' := List.count_pos_iff.mpr (List.mem_of_getLast? hlast)
    omega
  subst hnil
  refine ⟨?_, [], after, rfl, .inl rfl, hafter, rfl⟩
  exact fun hmem => (List.mem_cons.mp hmem).elim (fun h => hc h.symm) hline

theorem isLine_of_getElem?_pieces {text line : List Char} {i : Nat}
    (h : (pieces text)[i]? = some line) : IsLine text (i + 1) line := by
  induction text generalizing i line with
  | nil =>
      cases i with
      | zero =>
          obtain rfl := Option.some.inj h
          exact ⟨List.not_mem_nil, [], [], rfl, .inl rfl, .inl rfl, rfl⟩
      | succ i => cases h
  | cons c text ih =>
      by_cases hc : c = '\n'
      · subst hc
        rw [pieces_newline] at h
        cases i with
        | zero =>
            obtain rfl := Option.some.inj h
            exact ⟨List.not_mem_nil, [], '\n' :: text, rfl, .inl rfl, .inr rfl, rfl⟩
        | succ i => exact (ih h).cons '\n' (.inl rfl)
      · obtain ⟨piece, rest, hpieces⟩ := List.exists_cons_of_ne_nil (pieces_ne_nil text)
        rw [pieces_char hc hpieces] at h
        cases i with
        | zero =>
            obtain rfl := Option.some.inj h
            exact (ih (by rw [hpieces]; rfl)).cons_first hc
        | succ i =>
            have hnext : IsLine text (i + 1 + 1) line := ih (by rw [hpieces]; exact h)
            have hline := hnext.cons c (.inr (Nat.succ_ne_zero i))
            rwa [List.count_singleton, beq_false_of_ne hc] at hline

theorem isLine_iff {text line : List Char} {n : Nat} :
    IsLine text n line ↔ ∃ i, n = i + 1 ∧ (pieces text)[i]? = some line := by
  constructor
  · exact getElem?_pieces_of_isLine
  · rintro ⟨i, rfl, h⟩
    exact isLine_of_getElem?_pieces h

/-- A text is its pieces with line feeds between them. -/
theorem intercalate_pieces (text : String) :
    "\n".intercalate ((pieces text.toList).map String.ofList) = text := by
  rw [← String.toList_inj, String.toList_intercalate, List.map_map, pieces_eq_splitOn]
  simp only [Function.comp_def, String.toList_ofList, List.map_id']
  exact List.intercalate_splitOn '\n'

theorem not_mem_of_mem_pieces {s piece : List Char} (h : piece ∈ pieces s) : '\n' ∉ piece := by
  obtain ⟨i, hi⟩ := List.mem_iff_getElem?.mp h
  exact (isLine_of_getElem?_pieces hi).1

/-- Lines with line feeds between them are the pieces of the text. -/
theorem pieces_intercalate {lines : List String} (hne : lines ≠ [])
    (hlines : ∀ l ∈ lines, '\n' ∉ l.toList) :
    pieces ("\n".intercalate lines).toList = lines.map String.toList := by
  rw [pieces_eq_splitOn, String.toList_intercalate]
  exact List.splitOn_intercalate _ (List.forall_mem_map.mpr hlines) (mt List.map_eq_nil_iff.mp hne)

/-! ## Lines that are skipped -/

/-- A blank line, or one whose first visible character is a number sign. -/
def IsSkipped (line : String) : Prop :=
  ∃ blanks rest, line.toList = blanks ++ rest ∧ (∀ c ∈ blanks, isBlank c = true) ∧
    (rest = [] ∨ rest.head? = some '#')

theorem isBlank_of_trimStart {s t : List Char} {c : Char} (h : trimStart s = c :: t) :
    isBlank c = false := by
  have hhead := List.head?_dropWhile_not isBlank s
  rw [← trimStart, h] at hhead
  exact hhead

/-- Trimming at the end keeps a first character that is not blank. -/
theorem head?_trimChars (s : List Char) : (trimChars s).head? = (trimStart s).head? := by
  unfold trimChars
  cases hs : trimStart s with
  | nil => rfl
  | cons c t =>
      have hc : trimStart [c] = [c] :=
        List.dropWhile_cons_of_neg (by simp [isBlank_of_trimStart hs])
      rw [trimStart, List.reverse_cons, List.dropWhile_append, ← trimStart, ← trimStart, hc,
        List.head?_reverse]
      split
      · rfl
      · rw [List.getLast?_append]
        rfl

theorem isSkipped_iff (line : String) :
    IsSkipped line ↔ (trimStart line.toList).head? = none ∨
      (trimStart line.toList).head? = some '#' := by
  constructor
  · rintro ⟨blanks, rest, hline, hblanks, hrest⟩
    rw [trimStart, hline, List.dropWhile_append_of_pos hblanks]
    rcases hrest with rfl | hrest
    · exact .inl rfl
    · obtain ⟨rest, rfl⟩ := List.head?_eq_some_iff.mp hrest
      exact .inr rfl
  · intro h
    refine ⟨line.toList.takeWhile isBlank, trimStart line.toList,
      List.takeWhile_append_dropWhile.symm, List.all_eq_true.mp List.all_takeWhile, ?_⟩
    exact h.imp_left List.head?_eq_none_iff.mp

end Text

namespace Command

theorem isQueryLine_eq_false_iff (line : String) : isQueryLine line = false ↔
    line.toList.head? = none ∨ line.toList.head? = some '#' := by
  unfold isQueryLine
  cases line.toList <;> simp

/-- A trimmed line is taken for a query if the line is not skipped. -/
theorem isQueryLine_trim (line : String) :
    isQueryLine (Text.trim line) = true ↔ ¬ Text.IsSkipped line := by
  rw [Text.isSkipped_iff, ← Text.head?_trimChars, ← Bool.not_eq_false, isQueryLine_eq_false_iff,
    Text.trim, String.toList_ofList]

/-! ## Queries by number -/

/-- The queries among some lines, with numbers from `n` on. -/
def queriesFrom (n : Nat) (lines : List String) : List (Nat × String) :=
  ((lines.map Text.trim).zipIdx n).filterMap fun (line, number) =>
    if isQueryLine line then some (number, line) else none

theorem queriesFrom_append (n : Nat) (ls ms : List String) :
    queriesFrom n (ls ++ ms) = queriesFrom n ls ++ queriesFrom (n + ls.length) ms := by
  rw [queriesFrom, List.map_append, List.zipIdx_append, List.filterMap_append, List.length_map]
  rfl

theorem queriesFrom_cons (n : Nat) (l : String) (ls : List String) :
    queriesFrom n (l :: ls) = (if isQueryLine (Text.trim l) then [(n, Text.trim l)] else []) ++
      queriesFrom (n + 1) ls := by
  rw [queriesFrom, List.map_cons, List.zipIdx_cons, List.filterMap_cons]
  split <;> simp_all [queriesFrom]

theorem queriesFrom_add (n k : Nat) (ls : List String) :
    queriesFrom (n + k) ls = (queriesFrom n ls).map fun p => (p.1 + k, p.2) := by
  induction ls generalizing n with
  | nil => rfl
  | cons l ls ih =>
      rw [queriesFrom_cons, queriesFrom_cons, Nat.add_right_comm, ih, List.map_append]
      split <;> rfl

theorem mem_queriesFrom_iff {n m : Nat} {q : String} {ls : List String} :
    (m, q) ∈ queriesFrom n ls ↔ ∃ i line, m = n + i ∧ ls[i]? = some line ∧
      ¬ Text.IsSkipped line ∧ q = Text.trim line := by
  rw [queriesFrom, List.mem_filterMap]
  constructor
  · rintro ⟨⟨line, number⟩, hmem, hquery⟩
    obtain ⟨hle, htrim⟩ := List.mk_mem_zipIdx_iff_le_and_getElem?_sub.mp hmem
    rw [List.getElem?_map, Option.map_eq_some_iff] at htrim
    obtain ⟨line, hline, rfl⟩ := htrim
    dsimp only at hquery
    split at hquery <;> cases hquery
    rename_i hquery
    exact ⟨m - n, line, (Nat.add_sub_cancel' hle).symm, hline,
      (isQueryLine_trim line).mp hquery, rfl⟩
  · rintro ⟨i, line, rfl, hline, hskipped, rfl⟩
    refine ⟨(Text.trim line, n + i), List.mk_mem_zipIdx_iff_le_and_getElem?_sub.mpr
      ⟨Nat.le_add_right n i, ?_⟩, if_pos ((isQueryLine_trim line).mpr hskipped)⟩
    rw [Nat.add_sub_cancel_left, List.getElem?_map, hline, Option.map_some]

theorem queriesFrom_skipped (n : Nat) {ls : List String} (h : ∀ l ∈ ls, Text.IsSkipped l) :
    queriesFrom n ls = [] := by
  refine List.eq_nil_iff_forall_not_mem.mpr fun p hp => ?_
  obtain ⟨i, line, -, hline, hskipped, -⟩ := mem_queriesFrom_iff.mp hp
  exact hskipped (h line (List.mem_of_getElem? hline))

theorem queriesFrom_increasing (n : Nat) (ls : List String) :
    (queriesFrom n ls).Pairwise fun p p' => p.1 < p'.1 := by
  induction ls generalizing n with
  | nil => exact .nil
  | cons l ls ih =>
      rw [queriesFrom_cons]
      split
      · refine List.pairwise_cons.mpr ⟨fun p hp => ?_, ih (n + 1)⟩
        obtain ⟨i, line, hnumber, -⟩ := mem_queriesFrom_iff.mp hp
        show n < p.1
        omega
      · exact ih (n + 1)

/-- An empty piece at the end holds no query. -/
theorem queriesFrom_dropEmptyEnd (n : Nat) (ps : List (List Char)) :
    queriesFrom n ((Text.dropEmptyEnd ps).map String.ofList) =
      queriesFrom n (ps.map String.ofList) := by
  fun_induction Text.dropEmptyEnd ps generalizing n with
  | case1 => rfl
  | case2 => rfl
  | case3 piece rest _ ih =>
      rw [List.map_cons, List.map_cons, queriesFrom_cons, queriesFrom_cons, ih]

/-- The queries of a text are those of its pieces. -/
theorem batchQueries_eq (content : String) : batchQueries content =
    queriesFrom 1 ((Text.pieces content.toList).map String.ofList) := by
  rw [← queriesFrom_dropEmptyEnd]
  rfl

theorem batchQueries_intercalate {lines : List String} (h : ∀ l ∈ lines, '\n' ∉ l.toList) :
    batchQueries ("\n".intercalate lines) = queriesFrom 1 lines := by
  cases lines with
  | nil => decide
  | cons l ls =>
      rw [batchQueries_eq, Text.pieces_intercalate (List.cons_ne_nil l ls) h, List.map_map]
      simp only [Function.comp_def, String.ofList_toList, List.map_id']

/-! ## The headline theorem -/

theorem batchQueries_append (c₁ c₂ : String) : batchQueries (c₁ ++ "\n" ++ c₂) =
    batchQueries c₁ ++ (batchQueries c₂).map fun p => (p.1 + (1 + c₁.toList.count '\n'), p.2) := by
  have htext : (c₁ ++ "\n" ++ c₂).toList = c₁.toList ++ '\n' :: c₂.toList := by
    rw [String.toList_append, String.toList_append, List.append_assoc]
    rfl
  rw [batchQueries_eq, htext, Text.pieces_append, List.map_append, queriesFrom_append,
    List.length_map, Text.length_pieces, queriesFrom_add, ← batchQueries_eq, ← batchQueries_eq,
    Nat.add_comm 1]

theorem mem_batchQueries_iff {c q : String} {n : Nat} :
    (n, q) ∈ batchQueries c ↔
      ∃ line : String, Text.IsLine c.toList n line.toList ∧ ¬ Text.IsSkipped line ∧
        q = Text.trim line := by
  rw [batchQueries_eq, mem_queriesFrom_iff]
  simp only [Text.isLine_iff, List.getElem?_map, Option.map_eq_some_iff]
  constructor
  · rintro ⟨i, line, rfl, ⟨piece, hpiece, rfl⟩, hquery⟩
    exact ⟨_, ⟨i, Nat.add_comm 1 i, by rwa [String.toList_ofList]⟩, hquery⟩
  · rintro ⟨line, ⟨i, rfl, hpiece⟩, hquery⟩
    exact ⟨i, line, Nat.add_comm i 1, ⟨_, hpiece, String.ofList_toList⟩, hquery⟩

/-- Lines that are skipped move the numbers behind them. -/
theorem queriesFrom_insert {before skipped after : List String}
    (h : ∀ l ∈ skipped, Text.IsSkipped l) :
    queriesFrom 1 (before ++ skipped ++ after) =
      (queriesFrom 1 (before ++ after)).map fun p =>
        (if p.1 ≤ before.length then p.1 else p.1 + skipped.length, p.2) := by
  rw [queriesFrom_append, queriesFrom_append, queriesFrom_append, queriesFrom_skipped _ h,
    List.append_nil, List.map_append, List.length_append, ← Nat.add_assoc, queriesFrom_add]
  congr 1
  · refine (List.map_id _).symm.trans (List.map_congr_left fun p hp => ?_)
    obtain ⟨i, line, hnumber, hline, -⟩ := mem_queriesFrom_iff.mp hp
    have hlt := (List.getElem?_eq_some_iff.mp hline).1
    rw [if_pos (by omega)]
    rfl
  · refine List.map_congr_left fun p hp => ?_
    obtain ⟨i, line, hnumber, -⟩ := mem_queriesFrom_iff.mp hp
    rw [if_neg (by omega)]

/-- **The lines of a batch.** The queries of two texts with a line feed between
them are those of the first and then those of the second, their numbers moved
by one more than the line feeds of the first. So the numbers increase, every
query is the trimmed text of the line it is numbered with, a line is left out
only if it is blank or starts with a number sign, and to insert or delete such
lines changes no query and moves only the numbers behind them. -/
theorem batchQueries_laws :
    (∀ c₁ c₂ : String, batchQueries (c₁ ++ "\n" ++ c₂) =
      batchQueries c₁ ++
        (batchQueries c₂).map fun p => (p.1 + (1 + c₁.toList.count '\n'), p.2)) ∧
    (∀ c, (batchQueries c).Pairwise fun p p' => p.1 < p'.1) ∧
    (∀ c n q, (n, q) ∈ batchQueries c ↔
      ∃ line : String, Text.IsLine c.toList n line.toList ∧ ¬ Text.IsSkipped line ∧
        q = Text.trim line) ∧
    (∀ c, ∃ lines : List String, (∀ l ∈ lines, '\n' ∉ l.toList) ∧ c = "\n".intercalate lines) ∧
    ∀ before skipped after : List String, (∀ l ∈ before ++ skipped ++ after, '\n' ∉ l.toList) →
      (∀ l ∈ skipped, Text.IsSkipped l) →
        batchQueries ("\n".intercalate (before ++ skipped ++ after)) =
          (batchQueries ("\n".intercalate (before ++ after))).map fun p =>
            (if p.1 ≤ before.length then p.1 else p.1 + skipped.length, p.2) := by
  refine ⟨batchQueries_append, fun c => ?_, fun c n q => mem_batchQueries_iff, fun c => ?_,
    fun before skipped after hlines hskipped => ?_⟩
  · rw [batchQueries_eq]
    exact queriesFrom_increasing 1 _
  · refine ⟨_, List.forall_mem_map.mpr fun piece hpiece => ?_, (Text.intercalate_pieces c).symm⟩
    rw [String.toList_ofList]
    exact Text.not_mem_of_mem_pieces hpiece
  · obtain ⟨hfront, hafter⟩ := List.forall_mem_append.mp hlines
    have hbefore := (List.forall_mem_append.mp hfront).1
    rw [batchQueries_intercalate hlines,
      batchQueries_intercalate (List.forall_mem_append.mpr ⟨hbefore, hafter⟩),
      queriesFrom_insert hskipped]

/-- A carriage return before the line feed, a blank line and a remark. -/
theorem batchQueries_laws_remark :
    batchQueries ("a\r" ++ "\n" ++ "\n b \n") = [(1, "a"), (3, "b")] ∧
      batchQueries ("\n".intercalate (["a"] ++ ["", "  # c"] ++ ["b"])) = [(1, "a"), (4, "b")] := by
  obtain ⟨happend, -, -, -, hinsert⟩ := batchQueries_laws
  have hremark : Text.IsSkipped "  # c" :=
    ⟨[' ', ' '], ['#', ' ', 'c'], rfl, List.all_eq_true.mp rfl, .inr rfl⟩
  have hblank : Text.IsSkipped "" := ⟨[], [], rfl, List.forall_mem_nil _, .inl rfl⟩
  have hskipped : ∀ l ∈ ["", "  # c"], Text.IsSkipped l :=
    List.forall_mem_cons.mpr ⟨hblank, List.forall_mem_singleton.mpr hremark⟩
  exact ⟨(happend "a\r" "\n b \n").trans (by decide),
    (hinsert ["a"] ["", "  # c"] ["b"] (by decide) hskipped).trans (by decide)⟩

end Command

end EventQuery
