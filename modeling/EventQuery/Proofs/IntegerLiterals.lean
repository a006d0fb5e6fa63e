import EventQuery.Proofs.FailureClassification
import EventQuery.Proofs.LiteralPlaces
import EventQuery.Proofs.NoInjection
import EventQuery.Proofs.ShortestDecimal

/-!
# The value of an integer literal

A number without fraction and exponent, however long, stands for an integer.
If that fits 64 bits it is kept as it is; otherwise it is rounded to the
nearest binary number (`Literal.expr_integer`), and of the integers that are
rounded to the same binary number the clause has the shortest.

So the numeral in the clause stands for the integer of the query if and only
if this fits 64 bits or is the shortest (`integerLiteral_value`). Fifteen
digits with zeros behind them are always enough.
-/

namespace EventQuery

namespace Digits

theorem value_cons (c : Char) (s : List Char) :
    value (c :: s) = 10 ^ s.length * (c.toNat - '0'.toNat) + value s := by
  refine (Nat.ofDigitChars_cons.trans Nat.ofDigitChars_eq_ofDigitChars_zero).trans ?_
  rw [Nat.mul_zero, Nat.zero_add]
  rfl

theorem value_dropWhile_zeros (s : List Char) : value (s.dropWhile (· == '0')) = value s := by
  induction s with
  | nil => rfl
  | cons c s ih =>
      by_cases hc : c = '0'
      · rw [List.dropWhile_cons_of_pos (by simp [hc]), ih, value_cons, hc, Nat.sub_self,
          Nat.mul_zero, Nat.zero_add]
      · rw [List.dropWhile_cons_of_neg (by simp [hc])]

/-- Without the zeros in front of them, digits spell a number of as many
digits. -/
theorem pow_le_value {s rest : List Char} {c : Char} (hdigits : ∀ c ∈ s, c.isDigit = true)
    (h : s.dropWhile (· == '0') = c :: rest) : 10 ^ rest.length ≤ value s := by
  have hc : c ≠ '0' := by
    have hhead := List.head?_dropWhile_not (· == '0') s
    rw [h] at hhead
    simpa using hhead
  have hdigit := hdigits c ((List.dropWhile_suffix _).subset (h ▸ List.mem_cons_self))
  have hpos : 1 ≤ c.toNat - '0'.toNat := by
    have hne : c.toNat ≠ '0'.toNat := fun heq => hc (Char.toNat_inj.mp heq)
    have hrange : '0'.toNat ≤ c.toNat := by
      simp only [Char.isDigit, Bool.and_eq_true, decide_eq_true_eq] at hdigit
      exact hdigit.1
    omega
  rw [← value_dropWhile_zeros s, h, value_cons]
  exact Nat.le_add_right_of_le (Nat.le_mul_of_pos_right _ hpos)

end Digits

namespace Binary64

/-- The binary number nearest to an integer. -/
def ofInt (n : Int) : Binary64 := nearest (decide (n < 0)) n.natAbs 1

theorem nearest_huge {n i : Nat} (negative : Bool) (hi : 400 ≤ i) (hn : 10 ^ i ≤ n) :
    nearest negative n 1 = .infinity negative := by
  have hpos : 0 < 10 ^ i := Nat.pow_pos (by decide)
  have hlog : ∀ k, 2 ^ k ≤ n → k ≤ Nat.log2 n := fun k => (Nat.le_log2 (by omega)).mpr
  refine nearest_eq_infinity (hlog 1024 ?_)
  calc 2 ^ 1024 ≤ 10 ^ 400 := by decide +kernel
    _ ≤ 10 ^ i := pow_le_pow_right₀ (by decide) hi
    _ ≤ n := hn

end Binary64

namespace Numeral

/-- The integers of 64 bits with a sign. -/
def FitsInt64 (n : Int) : Prop := -2 ^ 63 ≤ n ∧ n < 2 ^ 63

instance (n : Int) : Decidable (FitsInt64 n) := inferInstanceAs (Decidable (_ ∧ _))

theorem natAbs_signed (negative : Bool) (n : Nat) : (signed negative n).natAbs = n := by
  cases negative <;> simp [signed]

theorem signed_lt_zero {negative : Bool} {n : Nat} (hn : n ≠ 0) :
    decide (signed negative n < 0) = negative := by
  cases negative <;> simp [signed, Nat.pos_of_ne_zero hn]

theorem signed_natAbs (n : Int) : signed (decide (n < 0)) n.natAbs = n := by
  unfold signed
  by_cases hn : n < 0
  · rw [decide_eq_true hn, if_pos rfl]
    omega
  · rw [decide_eq_false hn, if_neg Bool.false_ne_true]
    omega

/-- What does not fit has 64 bits or more without the sign. -/
theorem le_of_not_fitsInt64 {n : Int} (h : ¬ FitsInt64 n) : 2 ^ 63 ≤ n.natAbs := by
  unfold FitsInt64 at h
  omega

theorem ofInt_signed {negative : Bool} {n : Nat} (hn : n ≠ 0) :
    Binary64.ofInt (signed negative n) = Binary64.nearest negative n 1 := by
  rw [Binary64.ofInt, natAbs_signed, signed_lt_zero hn]

theorem integer?_eq_some {s : List Char} {n : Int} (h : integer? s = some n) :
    ∃ negative digits, s = Binary64.signText negative ++ digits ∧ Digits.isRun digits = true ∧
      n = signed negative (Digits.value digits) := by
  unfold integer? at h
  split at h
  · obtain ⟨hrun, hn⟩ := Option.ite_none_right_eq_some.mp h
    exact ⟨true, _, rfl, hrun, (Option.some.inj hn).symm⟩
  · obtain ⟨hrun, hn⟩ := Option.ite_none_right_eq_some.mp h
    exact ⟨false, _, rfl, hrun, (Option.some.inj hn).symm⟩

theorem integer?_toString (n : Int) : integer? (toString n).toList = some n := by
  rw [toList_toString_int, integer?_signText _ (Digits.isRun_toDigits _), Digits.value_toDigits,
    signed_natAbs]

section Token

variable (negative : Bool) {digits : List Char} (hrun : Digits.isRun digits = true)
include hrun

theorem splitSign_signText : splitSign (Binary64.signText negative ++ digits) =
    (negative, digits) := by
  cases negative with
  | true => rfl
  | false =>
      have hplain := splitSign_of_run hrun []
      rwa [List.append_nil] at hplain

theorem int64?_signText : int64? (Binary64.signText negative ++ digits) =
    if FitsInt64 (signed negative (Digits.value digits)) then
      some (signed negative (Digits.value digits))
    else none := by
  have hfits : ∀ magnitude, FitsInt64 (signed negative magnitude) ↔
      if negative then magnitude ≤ Nat.pow 2 63 else magnitude < Nat.pow 2 63 := by
    intro magnitude
    cases negative <;> simp only [FitsInt64, signed] <;> norm_num
    omega
  simp only [int64?, splitSign_signText negative hrun, hrun, if_true, hfits]
  cases negative <;> rfl

theorem parts?_signText :
    parts? (Binary64.signText negative ++ digits) = some ⟨negative, digits, [], 0⟩ := by
  obtain ⟨hne, hdigits⟩ := isRun_iff.mp hrun
  have hend : Halts Char.isDigit [] := nofun
  have htake := takeWhile_run hdigits hend
  have hdrop := dropWhile_run hdigits hend
  rw [List.append_nil] at htake hdrop
  simp only [parts?, splitSign_signText negative hrun, htake, hdrop]
  rw [if_neg (by simp [hne])]
  rfl

/-- The shortcut for very long numerals changes nothing: they are out of
range. -/
theorem Parts.nearest_whole (hlarge : 2 ^ 63 ≤ Digits.value digits) :
    Parts.nearest ⟨negative, digits, [], 0⟩ =
      Binary64.nearest negative (Digits.value digits) 1 := by
  have hvalue := Digits.value_dropWhile_zeros digits
  cases hleft : digits.dropWhile (· == '0') with
  | nil =>
      have hzero : Digits.value digits = 0 := by rw [← hvalue, hleft]; rfl
      omega
  | cons c rest =>
      have hpow := Digits.pow_le_value (isRun_iff.mp hrun).2 hleft
      have hscale : (0 : Int) - ([] : List Char).length = 0 := rfl
      rw [hleft] at hvalue
      simp only [Parts.nearest, List.append_nil, hleft, hscale, hvalue, List.isEmpty_cons,
        Bool.false_eq_true, if_false, Int.zero_add, Int.le_refl, if_true]
      split
      · next hlong =>
          have hlength : 400 ≤ rest.length := by
            rw [List.length_cons] at hlong
            omega
          exact (Binary64.nearest_huge negative hlength hpow).symm
      · rw [if_neg (by omega)]
        exact congrArg (Binary64.nearest negative · 1) (Nat.mul_one _)

end Token

end Numeral

/-- The constant of an integer literal, whatever its length. -/
theorem Literal.evalNumber?_integer {raw : String} {n : Int}
    (h : Numeral.integer? raw.toList = some n) :
    evalNumber? raw = some (if Numeral.FitsInt64 n then .int n else .float (.ofInt n)) := by
  obtain ⟨negative, digits, hraw, hrun, rfl⟩ := Numeral.integer?_eq_some h
  rw [evalNumber?, hraw, Numeral.int64?_signText negative hrun]
  by_cases hfits : Numeral.FitsInt64 (Numeral.signed negative (Digits.value digits))
  · rw [if_pos hfits, if_pos hfits]
  · have hlarge := Numeral.le_of_not_fitsInt64 hfits
    rw [Numeral.natAbs_signed] at hlarge
    rw [if_neg hfits, if_neg hfits, Numeral.binary64?, Numeral.parts?_signText negative hrun,
      Numeral.ofInt_signed (by omega)]
    exact congrArg (fun x => some (Const.float x))
      (Numeral.Parts.nearest_whole negative hrun hlarge)

/-! ## The numeral in the clause -/

namespace Binary64

variable {n : Int} (h : ¬ Numeral.FitsInt64 n)
include h

theorem integer?_plain_ofInt :
    Numeral.integer? (plain (ofInt n)).toList = some n ↔ Decimal.IsShortest n.natAbs := by
  have hiff : Numeral.integer? (plain (ofInt n)).toList =
      some (Numeral.signed (decide (n < 0)) n.natAbs) ↔ _ :=
    integer?_plain_iff (Numeral.le_of_not_fitsInt64 h)
  rwa [Numeral.signed_natAbs] at hiff

/-- What is written for an integer in range stands for one that is rounded
to the same binary number. -/
theorem ofInt_integer?_plain : (∃ negative, ofInt n = .infinity negative) ∨
    ∃ p, Numeral.integer? (plain (ofInt n)).toList = some p ∧ ofInt p = ofInt n := by
  rcases nearest_large (decide (n < 0)) (Numeral.le_of_not_fitsInt64 h) with
    hinfinite | ⟨m, k, hlow, hhigh, hk, hk', hfinite⟩
  · exact .inl ⟨_, hinfinite⟩
  · obtain ⟨p, hp, htext⟩ := integer?_plain (decide (n < 0)) hlow hhigh hk
    have hnearest := nearest_of_contains hlow hhigh (decide (n < 0)) hk' hp.contains
    have hne := Decimal.ne_zero_of_contains hlow hp.contains
    refine .inr ⟨_, ?_, (Numeral.ofInt_signed hne).trans (hnearest.trans hfinite.symm)⟩
    rw [ofInt, hfinite, htext]

end Binary64

namespace Literal

variable {raw : String} {n : Int} (h : Numeral.integer? raw.toList = some n)
include h

theorem number_integer : (Literal.number raw).expr =
    .const (if Numeral.FitsInt64 n then .int n else .float (.ofInt n)) := by
  rw [expr, evalNumber?_integer h, Option.getD_some]

theorem integer?_sql_iff : Numeral.integer? (Literal.number raw).expr.sql.toList = some n ↔
    Numeral.FitsInt64 n ∨ Decimal.IsShortest n.natAbs := by
  rw [number_integer h]
  by_cases hfits : Numeral.FitsInt64 n
  · rw [if_pos hfits]
    exact iff_of_true (Numeral.integer?_toString n) (.inl hfits)
  · rw [if_neg hfits, or_iff_right hfits]
    exact Binary64.integer?_plain_ofInt hfits

theorem ofInt_integer?_sql : (∃ negative, Binary64.ofInt n = .infinity negative) ∨
    ∃ p, Numeral.integer? (Literal.number raw).expr.sql.toList = some p ∧
      Binary64.ofInt p = Binary64.ofInt n := by
  rw [number_integer h]
  by_cases hfits : Numeral.FitsInt64 n
  · rw [if_pos hfits]
    exact .inr ⟨n, Numeral.integer?_toString n, rfl⟩
  · rw [if_neg hfits]
    exact Binary64.ofInt_integer?_plain hfits

end Literal

/-- **Integer literals.** An integer literal, wherever it stands in a query,
becomes a numeral between pieces of text that do not depend on it; if all of
the query can be mapped, the numeral is written at least once. It stands for
the integer of the literal iff that fits 64 bits or is the shortest of those
that are rounded to the same binary number. In the range of binary numbers it
always stands for one of these, and up to fifteen digits, with zeros behind
them, are kept. -/
theorem integerLiteral_value {o : Options} (ho : o.extractParameters = false)
    (category : Category) (C : Condition.Context) :
    ∃ pieces : List String, ∀ raw n text f, Numeral.integer? raw.toList = some n →
      parse text = .ok ⟨.simple ⟨category, some (C.fill (.number raw))⟩, []⟩ →
      Filter.ofText o text = .ok f →
      let numeral := (Literal.number raw).expr.sql
      (f.whereClause = numeral.intercalate pieces ∧ (f.errors = [] → 2 ≤ pieces.length)) ∧
      (Numeral.integer? numeral.toList = some n ↔
        Numeral.FitsInt64 n ∨ Decimal.IsShortest n.natAbs) ∧
      ((∃ negative, Binary64.ofInt n = .infinity negative) ∨
        ∃ p, Numeral.integer? numeral.toList = some p ∧ Binary64.ofInt p = Binary64.ofInt n) ∧
      ∀ d i, d < 10 ^ 15 → n.natAbs = d * 10 ^ i → n.natAbs < 10 ^ 308 →
        Numeral.integer? numeral.toList = some n := by
  obtain ⟨pieces, hpieces⟩ := Condition.Context.whereClause_fill ho category C
  refine ⟨pieces, fun raw n text f hraw hparse hfilter => ?_⟩
  have hexpr := Literal.number_integer hraw
  have hvalue := Literal.integer?_sql_iff hraw
  refine ⟨?_, hvalue, Literal.ofInt_integer?_sql hraw, fun d i hd hn hless => hvalue.mpr ?_⟩
  · rw [hexpr]
    refine hpieces hexpr (fun s => ?_) hparse hfilter
    split <;> nofun
  · by_cases hfits : Numeral.FitsInt64 n
    · exact .inl hfits
    · have hlarge := Numeral.le_of_not_fitsInt64 hfits
      rw [hn] at hlarge hless ⊢
      exact .inr (Decimal.isShortest_of_digits hd hlarge hless)

/-- Fifteen digits beyond 64 bits, with zeros around them, in an address that
is written twice. -/
theorem integerLiteral_value_address :
    let raw := "-0012345678901234500000"
    let numeral := (Literal.number raw).expr.sql
    let C : Condition.Context := .call ⟨.cidrMatch, false⟩ [] .here
      [.literal (.string "\"x\""), .literal (.string "\"y\"")]
    let f : Filter := ⟨"(isIPAddressInRange(-12345678901234500000, 'x') OR " ++
      "isIPAddressInRange(-12345678901234500000, 'y'))", [], []⟩
    parse "any where cidrMatch(-0012345678901234500000, \"x\", \"y\")" =
      .ok ⟨.simple ⟨.any, some (C.fill (.number raw))⟩, []⟩ ∧
    Filter.ofText {} "any where cidrMatch(-0012345678901234500000, \"x\", \"y\")" = .ok f ∧
    Numeral.integer? raw.toList = some (-12345678901234500000) ∧
    (∃ pieces, f.whereClause = numeral.intercalate pieces ∧ 2 ≤ pieces.length) ∧
    Numeral.integer? numeral.toList = some (-12345678901234500000) := by
  have hparse : parse "any where cidrMatch(-0012345678901234500000, \"x\", \"y\")" =
      .ok ⟨.simple ⟨.any, some (.call ⟨.cidrMatch, false⟩
        [.literal (.number "-0012345678901234500000"), .literal (.string "\"x\""),
          .literal (.string "\"y\"")])⟩, []⟩ := parse_of_finish rfl rfl
  have hfilter : Filter.ofText {} "any where cidrMatch(-0012345678901234500000, \"x\", \"y\")" =
      .ok ⟨"(isIPAddressInRange(-12345678901234500000, 'x') OR " ++
        "isIPAddressInRange(-12345678901234500000, 'y'))", [], []⟩ :=
    Filter.ofText_of_parse hparse rfl
  intro raw numeral C f
  have hraw : Numeral.integer? raw.toList = some (-12345678901234500000) := by decide
  obtain ⟨pieces, hpieces⟩ := integerLiteral_value (o := {}) rfl .any C
  obtain ⟨⟨hclause, hplaces⟩, -, -, hdigits⟩ := hpieces raw _ _ f hraw hparse hfilter
  exact ⟨hparse, hfilter, hraw, ⟨pieces, hclause, hplaces rfl⟩,
    hdigits 123456789012345 5 (by decide) (by decide) (by decide +kernel)⟩

/-- The greatest integer of 64 bits without a sign is not kept: the numeral
in the clause stands for another. -/
theorem integerLiteral_rounded :
    let raw := "18446744073709551615"
    let numeral := "18446744073709552000"
    parse "any where a == 18446744073709551615" = .ok ⟨.simple ⟨.any, some (.comparison .eq
      (.field ⟨"a", false⟩) (.literal (.number raw)))⟩, []⟩ ∧
    Filter.ofText {} "any where a == 18446744073709551615" =
      .ok ⟨"(a = 18446744073709552000)", [], []⟩ ∧
    (Literal.number raw).expr.sql = numeral ∧
    Numeral.integer? raw.toList = some 18446744073709551615 ∧
    Numeral.integer? numeral.toList ≠ some 18446744073709551615 := by
  have hparse : parse "any where a == 18446744073709551615" = .ok ⟨.simple ⟨.any,
      some (.comparison .eq (.field ⟨"a", false⟩)
        (.literal (.number "18446744073709551615")))⟩, []⟩ := parse_of_finish rfl rfl
  refine ⟨hparse, Filter.ofText_of_parse hparse rfl, rfl, ?_, ?_⟩ <;> decide

end EventQuery
