import EventQuery.Proofs.FilterStages
import EventQuery.Proofs.PatternReplacements
import EventQuery.Proofs.SqlLexing
import Mathlib.Data.List.Infix

/-!
# What a pattern matches

In a query `*` stands for any sequence of characters, `?` for any one
character, and every other character for itself (`globMatches`). In SQL `%`
and `_` take these parts, and a backslash makes the next character stand for
itself (`Sql.likeMatches`). A pattern is put into the form of SQL by escaping
`%` and `_`, but not the backslash.

So a pattern without a backslash matches in SQL what it matches in a query
(`likeMatches_likePattern`). With one it matches other texts
(`likeMatches_ne_globMatches`). The argument is by weight: in a query no
text is lighter than a pattern that matches it, while a backslash makes the
lightest text that SQL accepts (`Sql.lightest`) lighter than the pattern.
-/

namespace EventQuery

/-! ## Matching -/

/-- A test for texts: one test for the first character and one for the
rest. -/
def oneThen (first : Char → Bool) (rest : List Char → Bool) : List Char → Bool
  | [] => false
  | c :: s => first c && rest s

/-- Does a pattern of a query match a text? -/
def globMatches : List Char → List Char → Bool
  | [], s => s.isEmpty
  | '*' :: p, s => s.tails.any (globMatches p)
  | '?' :: p, s => oneThen (fun _ => true) (globMatches p) s
  | c :: p, s => oneThen (· == c) (globMatches p) s

/-- Does a pattern of SQL match a text? A pattern that ends in an escape
matches nothing. -/
def Sql.likeMatches : List Char → List Char → Bool
  | [], s => s.isEmpty
  | '%' :: p, s => s.tails.any (likeMatches p)
  | '_' :: p, s => oneThen (fun _ => true) (likeMatches p) s
  | '\\' :: c :: p, s => oneThen (· == c) (likeMatches p) s
  | ['\\'], _ => false
  | c :: p, s => oneThen (· == c) (likeMatches p) s

theorem oneThen_eq_true_iff {first : Char → Bool} {rest : List Char → Bool} {s : List Char} :
    oneThen first rest s = true ↔ ∃ c t, s = c :: t ∧ first c = true ∧ rest t = true := by
  cases s <;> simp [oneThen]

theorem any_tails_iff {test : List Char → Bool} {s : List Char} :
    s.tails.any test = true ↔ ∃ t, t <:+ s ∧ test t = true := by
  simp only [List.any_eq_true, List.mem_tails]

theorem globMatches_char {c : Char} (hstar : c ≠ '*') (hmark : c ≠ '?') (p : List Char) :
    globMatches (c :: p) = oneThen (· == c) (globMatches p) := by
  funext s
  rw [globMatches]
  · exact fun h => hstar h
  · exact fun h => hmark h

open Sql Dialect

theorem likeMatches_char {c : Char} (hpercent : c ≠ '%') (hscore : c ≠ '_')
    (hescape : c ≠ '\\') (p : List Char) :
    likeMatches (c :: p) = oneThen (· == c) (likeMatches p) := by
  funext s
  rw [likeMatches]
  · exact fun h => hpercent h
  · exact fun h => hscore h
  · exact fun d q h _ => hescape h
  · exact fun h _ => hescape h

/-! ## Patterns in the form of SQL -/

/-- Without a backslash, a pattern means in SQL what it means in a query. -/
theorem likeMatches_likePattern {p : List Char} (h : '\\' ∉ p) :
    likeMatches (likePattern p) = globMatches p := by
  induction p with
  | nil => rfl
  | cons c p ih =>
      obtain ⟨hc, hp⟩ := not_or.mp (mt List.mem_cons.mpr h)
      rw [likePattern_cons]
      by_cases hpercent : c = '%'
      · subst hpercent
        rw [globMatches_char (by decide) (by decide), ← ih hp]
        rfl
      by_cases hscore : c = '_'
      · subst hscore
        rw [globMatches_char (by decide) (by decide), ← ih hp]
        rfl
      by_cases hstar : c = '*'
      · subst hstar
        funext s
        rw [globMatches, ← ih hp]
        rfl
      by_cases hmark : c = '?'
      · subst hmark
        funext s
        rw [globMatches, ← ih hp]
        rfl
      · rw [likeChar_other hpercent hscore hstar hmark, List.singleton_append,
          likeMatches_char hpercent hscore (Ne.symm hc), globMatches_char hstar hmark, ih hp]

/-! ## Weights -/

/-- A backslash weighs more than a sign that it may escape, and nothing else
weighs anything. -/
def charWeight : Char → Nat
  | '\\' => 2
  | '%' => 1
  | '_' => 1
  | _ => 0

def weight : List Char → Nat
  | [] => 0
  | c :: s => weight s + charWeight c

theorem weight_le_of_suffix {t s : List Char} (h : t <:+ s) : weight t ≤ weight s := by
  obtain ⟨before, rfl⟩ := h
  induction before with
  | nil => exact Nat.le_refl _
  | cons c before ih => exact ih.trans (Nat.le_add_right _ _)

/-- No text is lighter than a pattern of a query that it matches. -/
theorem weight_le_of_globMatches {p s : List Char} (h : globMatches p s = true) :
    weight p ≤ weight s := by
  induction p generalizing s with
  | nil => exact Nat.zero_le _
  | cons c p ih =>
      by_cases hstar : c = '*'
      · subst hstar
        obtain ⟨t, ht, hmatch⟩ := any_tails_iff.mp h
        exact (ih hmatch).trans (weight_le_of_suffix ht)
      by_cases hmark : c = '?'
      · subst hmark
        obtain ⟨d, t, rfl, -, hmatch⟩ := oneThen_eq_true_iff.mp h
        exact Nat.add_le_add (ih hmatch) (Nat.zero_le _)
      · rw [globMatches_char hstar hmark] at h
        obtain ⟨d, t, rfl, hd, hmatch⟩ := oneThen_eq_true_iff.mp h
        obtain rfl := eq_of_beq hd
        exact Nat.add_le_add_right (ih hmatch) _

/-- A pattern of a query matches itself. -/
theorem globMatches_self (p : List Char) : globMatches p p = true := by
  induction p with
  | nil => rfl
  | cons c p ih =>
      by_cases hstar : c = '*'
      · subst hstar
        exact any_tails_iff.mpr ⟨p, List.suffix_cons _ _, ih⟩
      by_cases hmark : c = '?'
      · subst hmark
        exact oneThen_eq_true_iff.mpr ⟨_, p, rfl, rfl, ih⟩
      · rw [globMatches_char hstar hmark]
        exact oneThen_eq_true_iff.mpr ⟨c, p, rfl, beq_self_eq_true c, ih⟩

/-- A text that a pattern of SQL matches, with nothing for `%` and a letter
for `_`. -/
def Sql.lightest : List Char → List Char
  | [] => []
  | '%' :: p => lightest p
  | '_' :: p => 'a' :: lightest p
  | '\\' :: c :: p => c :: lightest p
  | ['\\'] => []
  | c :: p => c :: lightest p

theorem lightest_char {c : Char} (hpercent : c ≠ '%') (hscore : c ≠ '_') (hescape : c ≠ '\\')
    (p : List Char) : lightest (c :: p) = c :: lightest p := by
  rw [lightest]
  · exact fun h => hpercent h
  · exact fun h => hscore h
  · exact fun d q h _ => hescape h
  · exact fun h _ => hescape h

/-- A character that is no escape before another one, and none at the end. -/
theorem ne_escape_of_other {c : Char} {p : List Char}
    (hpair : ∀ (d : Char) (q : List Char), c = '\\' → p = d :: q → False)
    (hend : c = '\\' → p = [] → False) : c ≠ '\\' := by
  intro h
  cases p with
  | nil => exact hend h rfl
  | cons d q => exact hpair d q h rfl

/-- A pattern of SQL that matches anything matches its lightest text. -/
theorem likeMatches_lightest {p s : List Char} (h : likeMatches p s = true) :
    likeMatches p (lightest p) = true := by
  fun_induction lightest p generalizing s with
  | case1 => rfl
  | case2 p ih =>
      obtain ⟨t, -, hmatch⟩ := any_tails_iff.mp h
      exact any_tails_iff.mpr ⟨_, List.suffix_refl _, ih hmatch⟩
  | case3 p ih =>
      obtain ⟨d, t, rfl, -, hmatch⟩ := oneThen_eq_true_iff.mp h
      exact ih hmatch
  | case4 c p ih =>
      obtain ⟨d, t, rfl, -, hmatch⟩ := oneThen_eq_true_iff.mp h
      exact oneThen_eq_true_iff.mpr ⟨c, _, rfl, beq_self_eq_true c, ih hmatch⟩
  | case5 => cases h
  | case6 c p hpercent hscore hpair hend ih =>
      rw [likeMatches_char hpercent hscore (ne_escape_of_other hpair hend)] at h ⊢
      obtain ⟨d, t, rfl, -, hmatch⟩ := oneThen_eq_true_iff.mp h
      exact oneThen_eq_true_iff.mpr ⟨c, _, rfl, beq_self_eq_true c, ih hmatch⟩

theorem weight_lightest_cons {c : Char} (hescape : c ≠ '\\') (p : List Char) :
    weight (lightest (likePattern (c :: p))) ≤
      weight (lightest (likePattern p)) + charWeight c := by
  rw [likePattern_cons]
  unfold likeChar
  split
  iterate 4 exact Nat.le_refl _
  rename_i hpercent hscore hstar hmark
  rw [List.singleton_append, lightest_char hpercent hscore hescape]
  exact Nat.le_refl _

/-- An escape is no character of the text, and neither is a wildcard after
an escaped backslash. -/
theorem weight_lightest_escape (c : Char) (p : List Char) :
    weight (lightest (likePattern ('\\' :: c :: p))) <
      weight (lightest (likePattern p)) + charWeight c + charWeight '\\' := by
  rw [likePattern_cons, likePattern_cons, show likeChar '\\' = ['\\'] from rfl]
  unfold likeChar
  split
  iterate 4 exact Nat.lt_succ_self _
  exact Nat.lt_add_of_pos_right (by decide)

theorem weight_lightest_le (p : List Char) : weight (lightest (likePattern p)) ≤ weight p := by
  -- An escape goes with the character after it, as in `lightest`.
  fun_induction lightest p with
  | case1 => exact Nat.le_refl _
  | case2 p ih | case3 p ih =>
      exact (weight_lightest_cons (by decide) p).trans (Nat.add_le_add_right ih _)
  | case4 c p ih =>
      refine (weight_lightest_escape c p).le.trans ?_
      exact Nat.add_le_add_right (Nat.add_le_add_right ih _) _
  | case5 => exact Nat.zero_le _
  | case6 c p hpercent hscore hpair hend ih =>
      have hescape := ne_escape_of_other hpair hend
      exact (weight_lightest_cons hescape p).trans (Nat.add_le_add_right ih _)

theorem weight_lightest_lt {p : List Char} (h : '\\' ∈ p) :
    weight (lightest (likePattern p)) < weight p := by
  have hcons {c : Char} {p : List Char} (hc : c ≠ '\\') (h : '\\' ∈ c :: p)
      (ih : '\\' ∈ p → weight (lightest (likePattern p)) < weight p) :
      weight (lightest (likePattern (c :: p))) < weight (c :: p) :=
    (weight_lightest_cons hc p).trans_lt
      (Nat.add_lt_add_right (ih (List.mem_of_ne_of_mem hc.symm h)) _)
  fun_induction lightest p with
  | case1 => cases h
  | case2 p ih | case3 p ih => exact hcons (by decide) h ih
  | case4 c p ih =>
      refine (weight_lightest_escape c p).trans_le ?_
      exact Nat.add_le_add_right (Nat.add_le_add_right (weight_lightest_le p) _) _
  | case5 => decide
  | case6 c p hpercent hscore hpair hend ih => exact hcons (ne_escape_of_other hpair hend) h ih

/-! ## The pattern in the text of a filter -/

/-- With a backslash, a pattern does not mean in SQL what it means in a
query. -/
theorem likeMatches_ne_globMatches {p : List Char} (h : '\\' ∈ p) :
    ¬∀ s, likeMatches (likePattern p) s = globMatches p s := by
  intro hagree
  have hself : likeMatches (likePattern p) p = true := (hagree p).trans (globMatches_self p)
  have hglob := (hagree _).symm.trans (likeMatches_lightest hself)
  exact absurd (weight_le_of_globMatches hglob) (Nat.not_le.mpr (weight_lightest_lt h))

/-- A pattern is written as one literal. The pattern in it matches in SQL
the texts that the pattern matches in a query, if and only if no backslash
is in it. -/
theorem likeOperand_agrees_iff_no_backslash (p : String) :
    ∃ pattern : String,
      Sql.scan .code (likeOperand (.string p)).sql.toList = some ⟨[pattern], []⟩ ∧
      ((∀ s : String, likeMatches pattern.toList s.toList = globMatches p.toList s.toList) ↔
        '\\' ∉ p.toList) := by
  refine ⟨String.ofList (likePattern p.toList), (Piece.literal (p := false) _).scan_eq, ?_⟩
  rw [String.toList_ofList]
  constructor
  · intro hagree hmem
    refine likeMatches_ne_globMatches hmem fun s => ?_
    simpa only [String.toList_ofList] using hagree (String.ofList s)
  · intro h s
    rw [likeMatches_likePattern h]

/-- A backslash before a percent sign is doubled by the escape of the sign,
and what the sign then stands for is any sequence. -/
theorem backslash_percent_not_literal :
    Filter.ofText {} "any where a like \"100\\%\"" =
      .ok ⟨"(a LIKE '100\\\\\\\\%')", [], []⟩ ∧
    Sql.scan .code "'100\\\\\\\\%'".toList = some ⟨["100\\\\%"], []⟩ ∧
    likeMatches "100\\\\%".toList "100\\ of 5".toList = true ∧
    globMatches "100\\%".toList "100\\ of 5".toList = false := by
  have hparse : parse "any where a like \"100\\%\"" = .ok ⟨.simple ⟨.any, some (.lookup
      ⟨"a", false⟩ false .like (.value (.literal (.string "\"100\\%\""))))⟩, []⟩ :=
    parse_of_finish rfl rfl
  exact ⟨Filter.ofText_of_parse hparse rfl, rfl, by decide, by decide⟩

end EventQuery
