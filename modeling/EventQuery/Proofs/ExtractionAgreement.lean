import EventQuery.Proofs.Extraction
import EventQuery.Proofs.FailureClassification
import EventQuery.Proofs.LikePatterns

/-!
# Extraction on and off

A query has one tree. With extraction off its filter is the text of the
tree; with extraction on it is the text of the same tree with a placeholder
in place of each constant that is no truth value, and the constants are the
parameters. `Expr.slots` lists these constants from left to right, and
`Expr.fill` puts other expressions in their places; `Expr.extract_eq` says
that extraction is this, with the placeholders numbered along the list.

Nothing else changes: the failures, the soft errors and the empty filter of
a query that matches everything are the same (`extraction_agrees`).
-/

namespace EventQuery

/-! ## The map of parameters -/

namespace NameMap

variable {α : Type}

theorem nodup_entries (m : NameMap α) : m.entries.Nodup := by
  refine m.ordered.imp ?_
  rintro a b hlt rfl
  exact String.lt_irrefl _ hlt

theorem get?_of_mem {m : NameMap α} {name : String} {value : α} (h : (name, value) ∈ m.entries) :
    m.get? name = some value := by
  obtain ⟨before, after, heq⟩ := List.append_of_mem h
  have hordered := m.ordered
  rw [heq] at hordered
  refine List.lookup_eq_some_iff.mpr ⟨before, after, heq, fun entry hentry => ?_⟩
  have hlt := (List.pairwise_append.mp hordered).2.2 entry hentry _ List.mem_cons_self
  exact bne_iff_ne.mpr fun hname => String.lt_irrefl _ (hname ▸ hlt)

theorem length_ofList {entries : List (String × α)}
    (hnames : entries.Pairwise fun a b => a.1 ≠ b.1) :
    (ofList entries).entries.length = entries.length := by
  have hentries : entries.Nodup := hnames.imp fun hne heq => hne (congrArg Prod.fst heq)
  refine List.Perm.length_eq ?_
  exact (List.perm_ext_iff_of_nodup (nodup_entries _) hentries).mpr fun _ => mem_ofList_iff hnames

end NameMap

theorem Parameters.length_named (ps : Parameters) : ps.named.entries.length = ps.length := by
  rw [Parameters.named, NameMap.length_ofList ps.names_ne, List.length_map, List.length_zipIdx]

/-! ## Filling in constants -/

namespace Expr

/-- The constants that are no truth values, from left to right. -/
def slots (e : Expr) : List Const := e.consts.filter fun c => !c.isBool

def listSlots (es : List Expr) : List Const := (listConsts es).filter fun c => !c.isBool

mutual

/-- An expression with others in place of these constants, in order. -/
def fill : Expr → List Expr → Expr
  | .const c, others => if c.isBool then .const c else others.headD (.const c)
  | .group e, others => .group (e.fill others)
  | .binary op left right, others =>
    .binary op (left.fill others) (right.fill (others.drop left.slots.length))
  | .unary op args, others => .unary op (fillList args others)
  | .call name args, others => .call name (fillList args others)
  | .array items, others => .array (fillList items others)
  | .symbol name, _ => .symbol name
  | .null, _ => .null
  | .fault message, _ => .fault message

def fillList : List Expr → List Expr → List Expr
  | [], _ => []
  | e :: es, others => e.fill others :: fillList es (others.drop e.slots.length)

end

theorem slots_binary (op : String) (left right : Expr) :
    (Expr.binary op left right).slots = left.slots ++ right.slots :=
  List.filter_append _ _

theorem listSlots_cons (e : Expr) (es : List Expr) :
    listSlots (e :: es) = e.slots ++ listSlots es :=
  List.filter_append _ _

end Expr

/-- What stands for the constant with this number. -/
def Const.hole (number : Nat) : Const → Expr
  | .int _ => .symbol ("\x7bP_" ++ toString number ++ ":Int64\x7d")
  | _ => .symbol ("\x7bP_" ++ toString number ++ ":String\x7d")

/-- Constants numbered from the one after `taken`. -/
def holes (taken : Nat) (cs : List Const) : List Expr :=
  (cs.zipIdx (taken + 1)).map fun (c, number) => c.hole number

theorem holes_append (taken : Nat) (cs ds : List Const) :
    holes taken (cs ++ ds) = holes taken cs ++ holes (taken + cs.length) ds := by
  simp [holes, List.zipIdx_append, Nat.add_right_comm]

theorem length_holes (taken : Nat) (cs : List Const) : (holes taken cs).length = cs.length := by
  simp [holes]

theorem Const.hole_eq {c : Const} (h : c.isBool = false) (number : Nat) :
    c.hole number = .symbol (placeholder number c) := by
  cases c with
  | bool b => cases h
  | _ =>
      refine congrArg Expr.symbol (String.toList_inj.mp ?_)
      simp [toList_placeholder, placeholderType]

namespace Expr

theorem extractList_eq {es : List Expr}
    (ih : ∀ e ∈ es, ∀ taken more,
      e.extract taken = (e.fill (holes taken e.slots ++ more), e.slots)) (taken : Nat)
    (more : List Expr) :
    extractList taken es = (fillList es (holes taken (listSlots es) ++ more), listSlots es) := by
  induction es generalizing taken with
  | nil => rfl
  | cons e es ihes =>
      obtain ⟨he, hes⟩ := List.forall_mem_cons.mp ih
      rw [listSlots_cons, holes_append, List.append_assoc, fillList,
        List.drop_left' (length_holes _ _), extractList, he taken _]
      dsimp only
      rw [ihes hes]

/-- Extraction puts numbered placeholders in place of the constants. -/
theorem extract_eq (e : Expr) (taken : Nat) (more : List Expr) :
    e.extract taken = (e.fill (holes taken e.slots ++ more), e.slots) := by
  induction e generalizing taken more with
  | const c =>
      cases hbool : c.isBool with
      | true => simp [extract, fill, slots, consts, hbool]
      | false => simp [extract, fill, slots, consts, holes, hbool, Const.hole_eq hbool]
  | group e ih =>
      rw [extract, ih taken more]
      rfl
  | binary op left right ihl ihr =>
      rw [slots_binary, holes_append, List.append_assoc, fill,
        List.drop_left' (length_holes _ _), extract, ihl taken _]
      dsimp only
      rw [ihr]
  | unary op args ih =>
      rw [extract, extractList_eq ih taken more]
      rfl
  | call name args ih =>
      rw [extract, extractList_eq ih taken more]
      rfl
  | array items ih =>
      rw [extract, extractList_eq ih taken more]
      rfl
  | _ => rfl

end Expr

/-! ## The category -/

section

variable (namer : Namer)

theorem Category.translated_slots (categoryField text : String) :
    ((Expr.binary "==" (.symbol categoryField) (.string text)).translated namer).result.slots =
      [.string text] := by
  rw [Expr.translated_binary, Expr.translated_symbol]
  cases namer categoryField <;> rfl

/-- The constant of the category stands last. -/
theorem SimpleQuery.translated_slots_category {q : SimpleQuery} {categoryField text : String}
    {e : Expr} (he : q.expr? categoryField = some e) (htext : q.category.text? = some text) :
    ∃ others, (e.translated namer).result.slots = others ++ [.string text] := by
  rcases expr?_cases he with ⟨c, text', -, htext', rfl⟩ | ⟨c, -, hnone, rfl⟩ |
    ⟨text', -, htext', rfl⟩
  · obtain rfl : text' = text := Option.some.inj (htext'.symm.trans htext)
    refine ⟨(c.expr.translated namer).result.slots, ?_⟩
    rw [Expr.translated_binary, ← Category.translated_slots namer categoryField text',
      ← Expr.slots_binary "AND"]
    rfl
  · cases hnone.symm.trans htext
  · obtain rfl : text' = text := Option.some.inj (htext'.symm.trans htext)
    exact ⟨[], Category.translated_slots namer categoryField text'⟩

end

/-! ## Both filters of a query -/

/-- Does the query ask for nothing? -/
def SimpleQuery.MatchesEverything (q : SimpleQuery) : Prop :=
  q.condition = none ∧ q.category.text? = none

/-- Two filters of one tree. The first writes the constants of the tree
out, the second has placeholders for them and the constants as its
parameters. -/
structure Filter.Agree (tree : Expr) (plain extracted : Filter) : Prop where
  errors : extracted.errors = plain.errors
  plain_clause : plain.whereClause = tree.sql
  plain_parameters : plain.parameters = []
  clause : extracted.whereClause = (tree.fill (holes 0 tree.slots)).sql
  count : extracted.parameters.named.entries.length = tree.slots.length
  value : ∀ i c, tree.slots[i]? = some c →
    extracted.parameters.named.get? ("P_" ++ toString (i + 1)) = some c

theorem Expr.clause_agree (e : Expr) (o : Options) :
    Filter.Agree (e.toSql o.namer).result
      (e.clause { o with extractParameters := false }).filter
      (e.clause { o with extractParameters := true }).filter := by
  have hextract := (e.toSql o.namer).result.extract_eq 0 []
  rw [List.append_nil] at hextract
  have hfilter : (e.clause { o with extractParameters := true }).filter =
      ⟨((e.toSql o.namer).result.fill (holes 0 (e.toSql o.namer).result.slots)).sql,
        (e.toSql o.namer).result.slots, (e.toSql o.namer).errors⟩ := by
    simp only [clause, if_true, hextract]
    rfl
  rw [hfilter]
  exact ⟨rfl, rfl, rfl, rfl, Parameters.length_named _,
    fun i c hc => NameMap.get?_of_mem (Parameters.mem_named_iff.mpr ⟨i, hc, rfl⟩)⟩

/-- **Extraction on and off agree.** A text fails alike with and without
extraction, or its filters are empty alike, or they are two filters of one
tree, the expression of the text in columns and SQL operators. The patterns
of this tree are those of the query in the form of SQL, so they are extracted
in it, and the category is the last parameter. -/
theorem extraction_agrees (o : Options) (text : String) :
    (∃ failure, ∀ extract,
      Filter.ofText { o with extractParameters := extract } text = .error failure) ∨
    (∃ q, parse text = .ok ⟨.simple q, []⟩ ∧ q.MatchesEverything ∧ ∀ extract,
      Filter.ofText { o with extractParameters := extract } text = .ok ⟨"", [], []⟩) ∨
    ∃ q e plain extracted, parse text = .ok ⟨.simple q, []⟩ ∧ ¬ q.MatchesEverything ∧
      lowerText text o.categoryField = .ok (some e) ∧
      Filter.ofText { o with extractParameters := false } text = .ok plain ∧
      Filter.ofText { o with extractParameters := true } text = .ok extracted ∧
      let tree := (e.toSql o.namer).result
      Filter.Agree tree plain extracted ∧
      tree.likePatterns = q.patterns.map Dialect.likeText ∧
      ∀ category, q.category.text? = some category →
        extracted.parameters.named.get? ("P_" ++ toString tree.slots.length) =
          some (.string category) := by
  cases hlower : lowerText text o.categoryField with
  | error failure => exact .inl ⟨failure, fun _ => Filter.ofText_of_lowerText hlower⟩
  | ok e? =>
      obtain ⟨q, hparse, hfaults, rfl⟩ := lowerText_eq_ok_iff.mp hlower
      have hfilter : ∀ extract, Filter.ofText { o with extractParameters := extract } text =
          .ok (Filter.ofClause? ((q.expr? o.categoryField).map fun e =>
            e.clause { o with extractParameters := extract })) :=
        fun _ => Filter.ofText_of_parse hparse hfaults
      cases he : q.expr? o.categoryField with
      | none =>
          refine .inr (.inl ⟨q, hparse, SimpleQuery.expr?_eq_none_iff.mp he, fun extract => ?_⟩)
          rw [hfilter, he]
          rfl
      | some e =>
          have hsome : ¬ q.MatchesEverything := by
            intro h
            rw [SimpleQuery.expr?_eq_none_iff.mpr h] at he
            cases he
          rw [he] at hfilter
          have hagree := e.clause_agree o
          have hpatterns := SimpleQuery.translated_likePatterns (o.namer.getD .identity) he
          rw [← Expr.toSql_result] at hpatterns
          refine .inr (.inr ⟨q, e, _, _, hparse, hsome, rfl, hfilter false, hfilter true,
            hagree, hpatterns, fun category hcategory => ?_⟩)
          obtain ⟨others, hslots⟩ := SimpleQuery.translated_slots_category _ he hcategory
          rw [← Expr.toSql_result] at hslots
          have hcount : (e.toSql o.namer).result.slots.length = others.length + 1 := by
            rw [hslots, List.length_append, List.length_singleton]
          rw [hcount]
          refine hagree.value others.length _ ?_
          rw [hslots, List.getElem?_concat_length]

end EventQuery
