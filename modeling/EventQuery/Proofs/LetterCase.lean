import EventQuery.Proofs.DialectMeaning
import EventQuery.Proofs.ListForms
import EventQuery.Proofs.PatternMeaning

/-!
# Forms that disregard letter case

A `~` after an operator or a function, and the operator `:`, ask for a test
that disregards the case of letters. The dialect gets there in two ways: by
the operator `ILIKE`, and by `lower` around what is compared. So with an
engine for which these two disregard case (`Engine.IgnoresCase`), the SQL of
such a form has one value on all values that differ only in case
(`insensitive_forms_ignore_case`), whatever the engine does otherwise.

There is one exception. `regex~` becomes the test `match`, as `regex` does,
and the case of letters counts in it (`regexInsensitive_heeds_case`).

Both statements compare two runs. A lookup reads the row only through its
column (`Expr.toDialect_lookup_strings`), and a call of a function with a `~`
reads its first argument only through `lower` (`Expr.sqlValue_lower`).
-/

namespace EventQuery

open Dialect

variable {δ : Type}

/-! ## Values up to letter case -/

/-- Values that differ at most in the case of letters. `fold` gives the one
form that stands for a letter in both cases. -/
inductive SqlValue.SameUpToCase (fold : Char → Char) : SqlValue δ → SqlValue δ → Prop
  | text {s t : String} (h : s.toList.map fold = t.toList.map fold) :
      SameUpToCase fold (.text s) (.text t)
  | refl (v : SqlValue δ) : SameUpToCase fold v v

/-- `lower` and `ILIKE` disregard the case of letters. -/
structure Engine.IgnoresCase (E : Engine δ) (fold : Char → Char) : Prop where
  lower {v w : SqlValue δ} (h : v.SameUpToCase fold w) : E.lower v = E.lower w
  ilike {v w : SqlValue δ} (h : v.SameUpToCase fold w) (pattern : SqlValue δ) :
    E.ilike v pattern = E.ilike w pattern

/-- The lookups that ask for a test without regard to case and get one. -/
def LookupOp.caseless : List LookupOp := [.colon, .likeInsensitive, .inListInsensitive]

theorem Engine.IgnoresCase.hits_eq {E : Engine δ} {fold : Char → Char} (hE : E.IgnoresCase fold)
    {op : LookupOp} (hop : op ∈ LookupOp.caseless) {v w : SqlValue δ}
    (h : v.SameUpToCase fold w) (operand : SqlValue δ) :
    E.hits op v operand = E.hits op w operand := by
  cases op with
  | colon | likeInsensitive => exact hE.ilike h operand
  | inListInsensitive => exact congrArg (E.compare .eq · (E.lower operand)) (hE.lower h)
  | like | regex | regexInsensitive | inList => exact absurd hop (by decide)

/-! ## Lookups of texts -/

/-- The operand that a lookup makes of a text. -/
def LookupOp.operandText (op : LookupOp) (s : String) : String :=
  if op.takesPattern then String.ofList (likePattern s.toList) else s

/-- Does the value of a column match one of some texts, or, negated, none? -/
def Engine.finds (E : Engine δ) (op : LookupOp) (negated : Bool) (v : SqlValue δ)
    (items : List String) : Truth :=
  let found := Truth.any (items.map fun s => E.hits op v (.text (op.operandText s)))
  if negated then found.not else found

theorem Engine.finds_congr {E : Engine δ} {op : LookupOp} {v w : SqlValue δ} {items : List String}
    (h : ∀ s ∈ items, E.hits op v (.text (op.operandText s)) =
      E.hits op w (.text (op.operandText s))) (negated : Bool) :
    E.finds op negated v items = E.finds op negated w items := by
  unfold Engine.finds
  rw [List.map_congr_left h]

theorem Dialect.operandFor_string (op : LookupOp) (s : String) :
    operandFor op (.string s) = .string (op.operandText s) := by
  unfold operandFor LookupOp.operandText
  split <;> rfl

namespace Expr

/-- Texts go through the dialect as they are. -/
theorem toDialect_strings (items : List String) :
    (Expr.array (items.map Expr.string)).toDialect = ⟨.array (items.map Expr.string), []⟩ := by
  have hlist : bottomUpList Dialect.step (items.map Expr.string) =
      ⟨items.map Expr.string, []⟩ := by
    rw [toDialect_list, List.map_map, List.flatMap_map]
    exact congrArg _ (List.flatMap_eq_nil_iff.mpr fun _ _ => rfl)
  exact congrArg (fun m : Mapped (List Expr) => Mapped.mk (Expr.array m.result) m.errors) hlist

/-- The value of a lookup of texts: it reads the row through its column
only. -/
theorem toDialect_lookup_strings (op : LookupOp) (negated : Bool) (column : String)
    {items : List String} (hitems : items ≠ []) :
    let m := (Expr.binary (op.name negated) (.symbol column) (.array (items.map .string))).toDialect
    m.errors = [] ∧ ∀ (E : Engine δ) (row : String → SqlValue δ),
      m.result.sqlValue E row = some (.ofTruth (E.finds op negated (row column) items)) := by
  intro m
  have hsucceeds := lookup_list_failure? op negated (.symbol column)
    (mt List.map_eq_nil_iff.mp hitems : items.map Expr.string ≠ [])
  cases ht : Dialect.binary (op.name negated) (.symbol column) (.array (items.map Expr.string)) with
  | error x => simp [ht, failure?] at hsucceeds
  | ok t =>
      have hm : m = ⟨t, [] ++ (Expr.array (items.map .string)).toDialect.errors⟩ :=
        toDialect_binary_of_ok (by rw [toDialect_strings]; exact ht)
      rw [toDialect_strings] at hm
      rw [hm]
      refine ⟨rfl, fun E row => ?_⟩
      have hoperands : List.Forall₂ (fun e w => (operandFor op e).sqlValue E row = some w)
          (operands (.array (items.map Expr.string)))
          (items.map fun s => .text (op.operandText s)) := by
        rw [operands, List.forall₂_map_left_iff, List.forall₂_map_right_iff]
        refine List.forall₂_same.mpr fun s _ => ?_
        rw [operandFor_string]
        rfl
      have hcolumn : (Expr.symbol column).sqlValue E row = some (row column) := rfl
      have hvalue := lookup_value hcolumn hoperands ht
      rwa [List.map_map] at hvalue

/-- A lookup of texts has one value on two rows if each text is found in both
columns or in neither. -/
theorem toDialect_lookup_strings_congr (op : LookupOp) (negated : Bool) {column : String}
    {items : List String} (hitems : items ≠ []) {E : Engine δ} {row row' : String → SqlValue δ}
    (h : ∀ s ∈ items, E.hits op (row column) (.text (op.operandText s)) =
      E.hits op (row' column) (.text (op.operandText s))) :
    let m := (Expr.binary (op.name negated) (.symbol column) (.array (items.map .string))).toDialect
    ∃ v, m.result.sqlValue E row = some v ∧ m.result.sqlValue E row' = some v := by
  obtain ⟨-, hvalue⟩ := toDialect_lookup_strings op negated column hitems
  refine ⟨_, hvalue E row, ?_⟩
  rw [hvalue E row', Engine.finds_congr h negated]

/-- `regex~` is rewritten as `regex` is. -/
theorem toDialect_regexInsensitive (negated : Bool) (left right : Expr) :
    (Expr.binary (LookupOp.regexInsensitive.name negated) left right).toDialect =
      (Expr.binary (LookupOp.regex.name negated) left right).toDialect := by
  have hstep (l r : Expr) : Dialect.step (.binary (LookupOp.regexInsensitive.name negated) l r) =
      Dialect.step (.binary (LookupOp.regex.name negated) l r) := by
    cases negated <;> rfl
  rw [toDialect, toDialect, bottomUp, bottomUp, Mapped.finish, Mapped.finish, hstep]

end Expr

/-! ## Functions -/

/-- The functions whose variant with a `~` disregards case. -/
def Builtin.caseless : List Builtin := [.startsWith, .endsWith, .stringContains, .indexOf]

/-- A call with a `~` and an accepted number of arguments is a call over
arguments of which the first two are in lower case. -/
theorem Dialect.call_insensitive {f : Builtin} (hf : f ∈ Builtin.caseless) {args : List Expr}
    (hcount : (arity f).accepts args.length = true) :
    ∃ name, call (CallName.text ⟨f, true⟩) args = .ok (.call name (lowerTwo args)) := by
  have hvariant : hasInsensitive f = true ∧
      ∃ name, ∀ args, target? f args = some (.call name args) := by
    cases f with
    | startsWith | endsWith | stringContains | indexOf => exact ⟨rfl, _, fun _ => rfl⟩
    | _ => exact absurd hf (by decide)
  obtain ⟨hvariant, name, htarget⟩ := hvariant
  refine ⟨name, ?_⟩
  unfold call
  rw [function?_text, hvariant]
  simp only [Bool.not_true, Bool.and_false, Bool.false_eq_true, if_false, hcount, if_true, htarget]

namespace Expr

variable {E : Engine δ} {row row' : String → SqlValue δ}

theorem sqlValue_lower (e : Expr) : (lower e).sqlValue E row = (e.sqlValue E row).map E.lower := by
  change (sqlValues E row [e]).bind (fun vs => some (E.apply "lower" vs)) = _
  rw [sqlValues, sqlValues]
  cases e.sqlValue E row <;> rfl

theorem sqlValue_call_eq (name : String) (args : List Expr) :
    (Expr.call name args).sqlValue E row = (sqlValues E row args).map (E.apply name) := by
  change (sqlValues E row args).bind (fun vs => some (E.apply name vs)) = _
  cases sqlValues E row args <;> rfl

theorem sqlValues_congr {es es' : List Expr}
    (h : List.Forall₂ (fun e e' => e.sqlValue E row = e'.sqlValue E row') es es') :
    sqlValues E row es = sqlValues E row' es' := by
  induction h with
  | nil => rfl
  | cons he _ ih => rw [sqlValues, sqlValues, he, ih]

theorem isSome_sqlValues (es : List Expr) :
    (sqlValues E row es).isSome = es.all fun e => (e.sqlValue E row).isSome := by
  induction es with
  | nil => rfl
  | cons e es ih =>
      rw [List.all_cons, ← ih, sqlValues]
      cases e.sqlValue E row with
      | none => rfl
      | some v => cases sqlValues E row es <;> rfl

theorem isSome_sqlValues_lowerTwo (args : List Expr) :
    (sqlValues E row (lowerTwo args)).isSome = (sqlValues E row args).isSome := by
  rw [isSome_sqlValues, isSome_sqlValues]
  match args with
  | [] => rfl
  | [a] => simp only [lowerTwo, List.all_cons, sqlValue_lower, Option.isSome_map]
  | a :: b :: rest => simp only [lowerTwo, List.all_cons, sqlValue_lower, Option.isSome_map]

/-- What is in lower case has one value on values that differ only in case. -/
theorem sqlValue_lower_congr {fold : Char → Char} (hE : E.IgnoresCase fold) {e : Expr}
    (h : Option.Rel (SqlValue.SameUpToCase fold) (e.sqlValue E row) (e.sqlValue E row')) :
    (lower e).sqlValue E row = (lower e).sqlValue E row' := by
  rw [sqlValue_lower, sqlValue_lower]
  revert h
  generalize e.sqlValue E row = v, e.sqlValue E row' = v'
  intro h
  cases h with
  | none => rfl
  | some hvalue => rw [Option.map_some, Option.map_some, hE.lower hvalue]

theorem sqlValues_lowerTwo_congr {fold : Char → Char} (hE : E.IgnoresCase fold) {first : Expr}
    {rest : List Expr}
    (hfirst : Option.Rel (SqlValue.SameUpToCase fold) (first.sqlValue E row)
      (first.sqlValue E row'))
    (hrest : ∀ e ∈ rest, e.sqlValue E row = e.sqlValue E row') :
    sqlValues E row (lowerTwo (first :: rest)) = sqlValues E row' (lowerTwo (first :: rest)) := by
  have hlower := sqlValue_lower_congr hE hfirst
  cases rest with
  | nil => exact sqlValues_congr (.cons hlower .nil)
  | cons second rest =>
      obtain ⟨hsecond, hrest⟩ := List.forall_mem_cons.mp hrest
      have hlower' : (lower second).sqlValue E row = (lower second).sqlValue E row' := by
        rw [sqlValue_lower, sqlValue_lower, hsecond]
      exact sqlValues_congr (.cons hlower (.cons hlower' (List.forall₂_same.mpr hrest)))

/-- The SQL of a call with a `~` and an accepted number of arguments. -/
theorem toDialect_call_insensitive {f : Builtin} (hf : f ∈ Builtin.caseless) {args : List Expr}
    (hcount : (arity f).accepts args.length = true) :
    ∃ name, (Expr.call (CallName.text ⟨f, true⟩) args).toDialect =
      ⟨.call name (lowerTwo (args.map fun e => e.toDialect.result)),
        args.flatMap fun e => e.toDialect.errors⟩ := by
  rw [← List.length_map (fun e => e.toDialect.result)] at hcount
  obtain ⟨name, hcall⟩ := call_insensitive hf hcount
  exact ⟨name, toDialect_call_of_ok hcall⟩

end Expr

/-! ## The headline theorem -/

/-- **Letter case.** Let `lower` and `ILIKE` disregard the case of letters.
A lookup of texts by `:`, `like~` or `in~`, negated or not, has one value on
all values of its column that differ only in case; and a call of one of the
four functions with a `~` has one value on all values of its first argument
that differ only in case. A lookup by `regex~` is the same as one by `regex`:
it has one value on the values that its patterns do not tell apart. -/
theorem insensitive_forms_ignore_case {E : Engine δ} {fold : Char → Char}
    (hE : E.IgnoresCase fold) :
    (∀ op ∈ LookupOp.caseless, ∀ (negated : Bool) (column : String) (items : List String),
      items ≠ [] →
        let m := (Expr.binary (op.name negated) (.symbol column)
          (.array (items.map .string))).toDialect
        m.errors = [] ∧ ∀ row row' : String → SqlValue δ,
          (row column).SameUpToCase fold (row' column) →
            ∃ v, m.result.sqlValue E row = some v ∧ m.result.sqlValue E row' = some v) ∧
    (∀ (negated : Bool) (column : String) (items : List String), items ≠ [] →
      let m := (Expr.binary (LookupOp.regexInsensitive.name negated) (.symbol column)
        (.array (items.map .string))).toDialect
      m = (Expr.binary (LookupOp.regex.name negated) (.symbol column)
        (.array (items.map .string))).toDialect ∧
      m.errors = [] ∧ ∀ row row' : String → SqlValue δ,
        (∀ s ∈ items, E.regex (row column) (.text s) = E.regex (row' column) (.text s)) →
          ∃ v, m.result.sqlValue E row = some v ∧ m.result.sqlValue E row' = some v) ∧
    ∀ f ∈ Builtin.caseless, ∀ (first : Expr) (rest : List Expr),
      (arity f).accepts (first :: rest).length = true →
        let m := (Expr.call (CallName.text ⟨f, true⟩) (first :: rest)).toDialect
        m.errors = ((first :: rest).flatMap fun e => e.toDialect.errors) ∧
        ∀ row row' : String → SqlValue δ,
          Option.Rel (SqlValue.SameUpToCase fold) (first.toDialect.result.sqlValue E row)
            (first.toDialect.result.sqlValue E row') →
          (∀ e ∈ rest, e.toDialect.result.sqlValue E row = e.toDialect.result.sqlValue E row') →
            m.result.sqlValue E row = m.result.sqlValue E row' ∧
            (m.result.sqlValue E row).isSome =
              (first :: rest).all fun e => (e.toDialect.result.sqlValue E row).isSome := by
  refine ⟨fun op hop negated column items hitems => ?_, fun negated column items hitems => ?_,
    fun f hf first rest hcount => ?_⟩
  · refine ⟨(Expr.toDialect_lookup_strings (δ := δ) op negated column hitems).1,
      fun row row' hrow => ?_⟩
    exact Expr.toDialect_lookup_strings_congr op negated hitems
      fun s _ => hE.hits_eq hop hrow (.text (op.operandText s))
  · refine ⟨Expr.toDialect_regexInsensitive negated _ _,
      (Expr.toDialect_lookup_strings (δ := δ) .regexInsensitive negated column hitems).1,
      fun row row' hrow => ?_⟩
    exact Expr.toDialect_lookup_strings_congr .regexInsensitive negated hitems hrow
  · obtain ⟨name, hm⟩ := Expr.toDialect_call_insensitive hf hcount
    rw [hm]
    refine ⟨rfl, fun row row' hfirst hrest => ⟨?_, ?_⟩⟩
    · rw [Expr.sqlValue_call_eq, Expr.sqlValue_call_eq, List.map_cons,
        Expr.sqlValues_lowerTwo_congr hE hfirst (List.forall_mem_map.mpr hrest)]
    · rw [Expr.sqlValue_call_eq, Option.isSome_map, Expr.isSome_sqlValues_lowerTwo,
        Expr.isSome_sqlValues, List.all_map]
      rfl

/-! ## An engine for ASCII texts -/

/-- The texts that a regular expression without special characters finds. -/
def Engine.contains (part s : List Char) : Bool := s.tails.any part.isPrefixOf

/-- An engine that knows texts, the cases of the letters of ASCII and regular
expressions without special characters. -/
def Engine.ascii : Engine Empty where
  coerce _ := .unknown
  compare
    | .eq, .text s, .text t => .ofBool (s == t)
    | _, _, _ => .unknown
  like
    | .text s, .text p => .ofBool (Sql.likeMatches p.toList s.toList)
    | _, _ => .unknown
  ilike
    | .text s, .text p =>
      .ofBool (Sql.likeMatches (p.toList.map Char.toLower) (s.toList.map Char.toLower))
    | _, _ => .unknown
  regex
    | .text s, .text p => .ofBool (contains p.toList s.toList)
    | _, _ => .unknown
  inRange _ _ := .unknown
  arith _ _ _ := .null
  function
    | "lower", [.text s] => .text (String.ofList (s.toList.map Char.toLower))
    | "startsWithUTF8", [.text s, .text part] => .bool (part.toList.isPrefixOf s.toList)
    | _, _ => .null

theorem Engine.ascii_ignoresCase : Engine.ascii.IgnoresCase Char.toLower where
  lower h := by
    cases h with
    | text h => exact congrArg (SqlValue.text ∘ String.ofList) h
    | refl v => rfl
  ilike h pattern := by
    cases h with
    | text h =>
        cases pattern with
        | text p =>
            exact congrArg (fun s => Truth.ofBool (Sql.likeMatches (p.toList.map Char.toLower) s)) h
        | _ => rfl
    | refl v => rfl

/-- The two ways side by side: a negated membership test and a test of the
start of a text, over a column that holds one word in two cases. -/
theorem insensitive_forms_ignore_case_ascii :
    let first : String → SqlValue Empty := fun _ => .text "CMD.exe"
    let second : String → SqlValue Empty := fun _ => .text "cmd.EXE"
    let listed := (Expr.binary "not in~" (.symbol "a")
      (.array [.string "Cmd.Exe", .string "x"])).toDialect
    let called := (Expr.call "startsWith~" [.symbol "a", .string "cMd"]).toDialect
    (∃ v, listed.result.sqlValue .ascii first = some v ∧
      listed.result.sqlValue .ascii second = some v) ∧
    called.result.sqlValue .ascii first = called.result.sqlValue .ascii second ∧
    called.result.sqlValue .ascii first = some (.bool true) := by
  intro first second listed called
  have hrow : (first "a").SameUpToCase Char.toLower (second "a") := .text (by decide)
  obtain ⟨hlookup, -, hcall⟩ := insensitive_forms_ignore_case Engine.ascii_ignoresCase
  obtain ⟨-, hlisted⟩ :=
    hlookup .inListInsensitive (by decide) true "a" ["Cmd.Exe", "x"] (by decide)
  obtain ⟨-, hcalled⟩ := hcall .startsWith (by decide) (.symbol "a") [.string "cMd"] (by decide)
  refine ⟨hlisted first second hrow, (hcalled first second (.some hrow) ?_).1, rfl⟩
  exact List.forall_mem_singleton.mpr rfl

/-- `regex~` tells a text from the same text in capitals. -/
theorem regexInsensitive_heeds_case :
    let m := (Expr.binary "regex~" (.symbol "a") (.array [.string "foo"])).toDialect
    Engine.ascii.IgnoresCase Char.toLower ∧
    (SqlValue.text "foo" : SqlValue Empty).SameUpToCase Char.toLower (.text "FOO") ∧
    m.errors = [] ∧
    m.result.sqlValue .ascii (fun _ => .text "foo") = some (.bool true) ∧
    m.result.sqlValue .ascii (fun _ => .text "FOO") = some (.bool false) :=
  ⟨Engine.ascii_ignoresCase, .text (by decide), rfl, rfl, rfl⟩

end EventQuery
