import EventQuery.Proofs.SqlSemantics
import EventQuery.Proofs.Tokens
import EventQuery.Proofs.Trees

/-!
# Extraction keeps meanings

An expression without its constants reads them from the parameters. A
placeholder is spelled `\x7bP_n:type\x7d`; `Parameters.bind` looks it up
among the named parameters, and every other symbol stays a column.

The names of the parameters are the numbers one to the length of the list,
each once (`Parameters.mem_named_iff`), and two placeholders with
different numbers are spelled differently (`placeholder_number_inj`). So
the placeholder put in place of a constant finds that constant again
(`Parameters.bind_placeholder`), and an expression has the same value
before and after extraction (`Expr.extract_value`).
-/

namespace EventQuery

/-! ## Entries of a map -/

namespace NameMap

variable {α : Type}

theorem mem_insertEntry_self (name : String) (value : α) (entries : List (String × α)) :
    (name, value) ∈ insertEntry name value entries := by
  induction entries with
  | nil => exact List.mem_singleton_self _
  | cons head rest ih =>
      rw [insertEntry]
      split
      · exact List.mem_cons_self
      · split
        · exact List.mem_cons_self
        · exact List.mem_cons_of_mem _ ih

theorem mem_insertEntry_of_mem {name : String} {value : α} {entries : List (String × α)}
    {entry : String × α} (hne : entry.1 ≠ name) (h : entry ∈ entries) :
    entry ∈ insertEntry name value entries := by
  induction entries with
  | nil => cases h
  | cons head rest ih =>
      rw [insertEntry]
      split
      · exact List.mem_cons_of_mem _ h
      · split
        · rename_i _ same
          rcases List.mem_cons.mp h with rfl | h
          · exact absurd same.symm hne
          · exact List.mem_cons_of_mem _ h
        · rcases List.mem_cons.mp h with rfl | h
          · exact List.mem_cons_self
          · exact List.mem_cons_of_mem _ (ih h)

theorem mem_insert_iff {m : NameMap α} {name : String} (value : α)
    (hname : ∀ entry ∈ m.entries, entry.1 ≠ name) {entry : String × α} :
    entry ∈ (m.insert name value).entries ↔ entry = (name, value) ∨ entry ∈ m.entries := by
  refine ⟨mem_insertEntry, ?_⟩
  rintro (rfl | h)
  · exact mem_insertEntry_self _ _ _
  · exact mem_insertEntry_of_mem (hname entry h) h

theorem mem_foldl_insert_iff {entries : List (String × α)}
    (hnames : entries.Pairwise fun a b => a.1 ≠ b.1) {m : NameMap α}
    (hm : ∀ a ∈ entries, ∀ b ∈ m.entries, b.1 ≠ a.1) {entry : String × α} :
    entry ∈ (entries.foldl (fun m (name, value) => m.insert name value) m).entries ↔
      entry ∈ entries ∨ entry ∈ m.entries := by
  induction entries generalizing m with
  | nil => simp
  | cons head rest ih =>
      obtain ⟨hhead, hrest⟩ := List.pairwise_cons.mp hnames
      have hinsert : ∀ b, b ∈ (m.insert head.1 head.2).entries ↔ b = head ∨ b ∈ m.entries :=
        fun b => mem_insert_iff head.2 (hm head List.mem_cons_self)
      rw [List.foldl_cons, ih hrest, hinsert, List.mem_cons, or_left_comm, or_assoc]
      intro a ha b hb
      rcases (hinsert b).mp hb with rfl | hb
      · exact hhead a ha
      · exact hm a (List.mem_cons_of_mem _ ha) b hb

/-- With different names, the entries of a map are those it was made of. -/
theorem mem_ofList_iff {entries : List (String × α)}
    (hnames : entries.Pairwise fun a b => a.1 ≠ b.1) {entry : String × α} :
    entry ∈ (ofList entries).entries ↔ entry ∈ entries := by
  rw [ofList, mem_foldl_insert_iff hnames (fun _ _ _ h => by cases h)]
  exact or_iff_left (by simp [empty])

end NameMap

/-! ## Names of parameters -/

theorem toDigits_inj {n m : Nat} (h : Nat.toDigits 10 n = Nat.toDigits 10 m) : n = m := by
  have hback := congrArg (Nat.ofDigitChars 10 · 0) h
  simpa [Nat.ofDigitChars_toDigits] using hback

theorem Parameters.toList_name (n : Nat) :
    (Parameters.name n).toList = 'P' :: '_' :: Nat.toDigits 10 n := by
  simp [Parameters.name, String.toList_append]

theorem Parameters.name_inj {n m : Nat} (h : Parameters.name n = Parameters.name m) : n = m := by
  have hlists := congrArg String.toList h
  simp only [Parameters.toList_name, List.cons.injEq, true_and] at hlists
  exact toDigits_inj hlists

/-- No two parameters have one name. -/
theorem Parameters.names_ne (ps : Parameters) :
    (ps.zipIdx.map fun (c, i) => (Parameters.name (i + 1), c)).Pairwise fun a b => a.1 ≠ b.1 := by
  rw [List.pairwise_map, List.pairwise_iff_getElem]
  intro i j hi hj hlt hname
  have hij := Parameters.name_inj hname
  simp only [List.get_eq_getElem, List.getElem_zipIdx] at hij
  omega

/-- The parameters are named by the numbers from one. -/
theorem Parameters.mem_named_iff {ps : Parameters} {name : String} {c : Const} :
    (name, c) ∈ ps.named.entries ↔ ∃ i, ps[i]? = some c ∧ name = Parameters.name (i + 1) := by
  rw [Parameters.named, NameMap.mem_ofList_iff ps.names_ne]
  simp only [List.mem_map, Prod.exists, Prod.mk.injEq, List.mem_zipIdx_iff_getElem?]
  constructor
  · rintro ⟨d, i, hd, rfl, rfl⟩
    exact ⟨i, hd, rfl⟩
  · rintro ⟨i, hc, rfl⟩
    exact ⟨c, i, hc, rfl, rfl⟩

/-! ## Placeholders -/

/-- The text of a placeholder for a parameter of this name. -/
def placeholderText (name : String) (c : Const) : String :=
  "\x7b" ++ name ++ ":" ++ c.placeholderType ++ "\x7d"

theorem toList_placeholder (n : Nat) (c : Const) : (placeholder n c).toList =
    '\x7b' :: 'P' :: '_' ::
      (Nat.toDigits 10 n ++ ':' :: (c.placeholderType.toList ++ ['\x7d'])) := by
  simp [placeholder, Parameters.toList_name, String.toList_append]

/-- The spelling of a placeholder tells its number. -/
theorem placeholder_number_inj {n m : Nat} {c d : Const} (h : placeholder n c = placeholder m d) :
    n = m := by
  have hlists := congrArg String.toList h
  simp only [toList_placeholder, List.cons.injEq, true_and] at hlists
  have hdigits : ∀ n, ∀ c ∈ Nat.toDigits 10 n, c.isDigit = true :=
    fun n c hc => Nat.isDigit_of_mem_toDigits (by decide) (by decide) hc
  have hcolon : ∀ s, Halts Char.isDigit (':' :: s) := by simp [Halts]
  refine toDigits_inj ?_
  rw [← takeWhile_run (hdigits n) (hcolon _), hlists, takeWhile_run (hdigits m) (hcolon _)]

namespace Parameters

variable {δ : Type}

/-- Read the placeholders of parameters from the parameters, and every
other symbol from the row. -/
def bind (ps : Parameters) (row : String → SqlValue δ) (name : String) : SqlValue δ :=
  match ps.named.entries.find? fun entry => name == placeholderText entry.1 entry.2 with
  | some (_, c) => .ofConst c
  | none => row name

/-- The placeholder of a parameter reads that parameter. -/
theorem bind_placeholder {ps : Parameters} {i : Nat} {c : Const} (hc : ps[i]? = some c)
    (row : String → SqlValue δ) : ps.bind row (placeholder (i + 1) c) = .ofConst c := by
  unfold bind
  split
  · rename_i name d hfind
    obtain ⟨j, hd, rfl⟩ := mem_named_iff.mp (List.mem_of_find?_eq_some hfind)
    have hspelled := List.find?_some hfind
    rw [beq_iff_eq] at hspelled
    have hij : i = j := Nat.succ_inj.mp (placeholder_number_inj hspelled)
    rw [hij, hd] at hc
    rw [Option.some.inj hc]
  · rename_i hfind
    have hno := List.find?_eq_none.mp hfind _ (mem_named_iff.mpr ⟨i, hc, rfl⟩)
    exact absurd (beq_self_eq_true _) hno

/-- A symbol that is no placeholder stays a column. -/
theorem bind_of_ne_placeholder {name : String} (hname : ∀ n c, name ≠ placeholder n c)
    (ps : Parameters) (row : String → SqlValue δ) : ps.bind row name = row name := by
  unfold bind
  split
  · rename_i d hfind
    obtain ⟨j, -, rfl⟩ := mem_named_iff.mp (List.mem_of_find?_eq_some hfind)
    have hspelled := List.find?_some hfind
    rw [beq_iff_eq] at hspelled
    exact absurd hspelled (hname (j + 1) d)
  · rfl

end Parameters

/-! ## Expressions -/

namespace Expr

variable {δ : Type} {E : Engine δ} {row row' : String → SqlValue δ}

/-- An expression and the one that stands for it have the same value; so
have they as a list in parentheses and as a null. -/
structure SameValue (E : Engine δ) (row' : String → SqlValue δ) (row : String → SqlValue δ)
    (e' e : Expr) : Prop where
  value : e'.sqlValue E row' = e.sqlValue E row
  items : e'.sqlItems E row' = e.sqlItems E row
  null : e'.isNullLiteral = e.isNullLiteral

namespace SameValue

theorem values {es' es : List Expr} (h : List.Forall₂ (SameValue E row' row) es' es) :
    sqlValues E row' es' = sqlValues E row es := by
  induction h with
  | nil => rfl
  | cons he _ ih => rw [sqlValues, sqlValues, he.value, ih]

theorem group {e' e : Expr} (h : SameValue E row' row e' e) :
    SameValue E row' row (.group e') (.group e) :=
  ⟨by rw [sqlValue, sqlValue, h.value], rfl, rfl⟩

theorem binary {op : String} {left' left right' right : Expr}
    (hl : SameValue E row' row left' left) (hr : SameValue E row' row right' right) :
    SameValue E row' row (.binary op left' right') (.binary op left right) := by
  refine ⟨?_, rfl, rfl⟩
  rw [sqlValue.eq_def, sqlValue.eq_def E row (.binary op left right)]
  simp only [hl.value, hr.value, hr.items, hr.null]

theorem unary {op : String} {args' args : List Expr}
    (h : List.Forall₂ (SameValue E row' row) args' args) :
    SameValue E row' row (.unary op args') (.unary op args) := by
  refine ⟨?_, rfl, rfl⟩
  rw [sqlValue.eq_def, sqlValue.eq_def E row (.unary op args)]
  simp only [values h]

theorem call {name : String} {args' args : List Expr}
    (h : List.Forall₂ (SameValue E row' row) args' args) :
    SameValue E row' row (.call name args') (.call name args) :=
  ⟨by rw [sqlValue, sqlValue, values h], rfl, rfl⟩

theorem array {items' items : List Expr} (h : List.Forall₂ (SameValue E row' row) items' items) :
    SameValue E row' row (.array items') (.array items) :=
  ⟨rfl, by rw [sqlItems, sqlItems, values h], rfl⟩

end SameValue

/-- No column is spelled like a placeholder. -/
def PlaceholderFree (e : Expr) : Prop := ∀ s ∈ e.symbols, ∀ n c, s ≠ placeholder n c

theorem placeholderFree_of_list {es : List Expr}
    (h : ∀ s ∈ listSymbols es, ∀ n c, s ≠ placeholder n c) : ∀ e ∈ es, e.PlaceholderFree := by
  intro e he s hs
  rw [listSymbols_eq_flatMap] at h
  exact h s (List.mem_flatMap.mpr ⟨e, he, hs⟩)

theorem extractList_sameValue {all : Parameters} {es : List Expr}
    (ih : ∀ e ∈ es, ∀ before : Parameters, before ++ (e.extract before.length).2 <+: all →
      e.PlaceholderFree → SameValue E (all.bind row) row (e.extract before.length).1 e)
    {before : Parameters} (hall : before ++ (extractList before.length es).2 <+: all)
    (hfree : ∀ e ∈ es, e.PlaceholderFree) :
    List.Forall₂ (SameValue E (all.bind row) row) (extractList before.length es).1 es := by
  induction es generalizing before with
  | nil => exact .nil
  | cons e es ihes =>
      simp only [extractList] at hall ⊢
      rw [← List.length_append, ← List.append_assoc] at hall
      rw [← List.length_append]
      obtain ⟨hhead, htail⟩ := List.forall_mem_cons.mp hfree
      refine .cons (ih e List.mem_cons_self before ((List.prefix_append _ _).trans hall) hhead) ?_
      exact ihes (fun e he => ih e (List.mem_cons_of_mem _ he)) hall htail

/-- Extraction keeps the value of an expression, whatever was taken out
before it and is taken out after it. -/
theorem extract_sameValue {all : Parameters} (e : Expr) (before : Parameters)
    (hall : before ++ (e.extract before.length).2 <+: all) (hfree : e.PlaceholderFree) :
    SameValue E (all.bind row) row (e.extract before.length).1 e := by
  induction e generalizing before with
  | const c =>
      rw [extract] at hall ⊢
      by_cases hbool : c.isBool
      · rw [if_pos hbool]
        exact ⟨rfl, rfl, rfl⟩
      · rw [if_neg hbool] at hall ⊢
        obtain ⟨after, rfl⟩ := hall
        have hc : (before ++ [c] ++ after)[before.length]? = some c := by simp
        exact ⟨congrArg some (Parameters.bind_placeholder hc row), rfl, rfl⟩
  | symbol name =>
      have hname := hfree name (List.mem_singleton_self name)
      exact ⟨congrArg some (Parameters.bind_of_ne_placeholder hname all row), rfl, rfl⟩
  | null => exact ⟨rfl, rfl, rfl⟩
  | group e ih => exact (ih before hall hfree).group
  | binary op left right ihl ihr =>
      simp only [extract] at hall ⊢
      rw [← List.length_append, ← List.append_assoc] at hall
      rw [← List.length_append]
      have hleft : left.PlaceholderFree := fun s hs => hfree s (List.mem_append_left _ hs)
      have hright : right.PlaceholderFree := fun s hs => hfree s (List.mem_append_right _ hs)
      exact .binary (ihl before ((List.prefix_append _ _).trans hall) hleft) (ihr _ hall hright)
  | unary op args ih =>
      exact .unary (extractList_sameValue ih hall (placeholderFree_of_list hfree))
  | call name args ih =>
      exact .call (extractList_sameValue ih hall (placeholderFree_of_list hfree))
  | array items ih =>
      exact .array (extractList_sameValue ih hall (placeholderFree_of_list hfree))
  | fault message => exact ⟨rfl, rfl, rfl⟩

/-- An expression whose constants are taken out has its value over the row
with the parameters in it. -/
theorem extract_value {e : Expr} (hfree : e.PlaceholderFree) :
    (e.extract 0).1.sqlValue E ((e.extract 0).2.bind row) = e.sqlValue E row :=
  (extract_sameValue e [] (List.prefix_refl _) hfree).value

end Expr

end EventQuery
