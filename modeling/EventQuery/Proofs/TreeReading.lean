import EventQuery.Grammar.Rules
import EventQuery.Proofs.Matching
import EventQuery.Query.Builder

/-!
# Trees of values and conditions

A text is matched to a parse tree, and the tree is built to a query. The two
fit: every tree that the grammar gives is of the shape the builder looks for,
and what is built is what the direct readers read.

There is one lemma for each rule of the grammar. It says that the rule's
matcher and its reader go together, and how its nodes are built. Here these
are the rules from fields to simple queries and samples, whose nodes are
built or are out of shape; `QueryBuilding` goes on with those that may also
hold counts and spans.
-/

namespace EventQuery

theorem bind_eq_ok_iff {ε α β : Type} {x : Except ε α} {f : α → Except ε β} {b : β} :
    x >>= f = .ok b ↔ ∃ a, x = .ok a ∧ f a = .ok b := by
  cases x with
  | error e => exact ⟨fun h => (by cases h), fun ⟨a, ha, _⟩ => (by cases ha)⟩
  | ok a => exact ⟨fun h => ⟨a, rfl, h⟩, fun ⟨a', ha, h⟩ => (by cases ha; exact h)⟩

theorem map_eq_ok_iff {ε α β : Type} {x : Except ε α} {f : α → β} {b : β} :
    f <$> x = .ok b ↔ ∃ a, x = .ok a ∧ f a = b := by
  rw [map_eq_pure_bind, bind_eq_ok_iff]
  simp only [pure, Except.pure, Except.ok.injEq]

namespace Grammar

open Reader Matcher

variable {α β : Type}

/-- One node of a symbol, which is built to the value. -/
abbrev Builds (x : Symbol) (build : ParseNode → Builder.Built α) : List ParseNode → α → Prop :=
  One fun n a => n.symbol = x ∧ build n = .ok a

theorem Each.mapM {x : Symbol} {build : ParseNode → Builder.Built α} {nodes : List ParseNode}
    {as : List α} (h : Each (Builds x build) nodes as) : nodes.mapM build = .ok as := by
  induction h with
  | nil => rfl
  | cons hn _ ih =>
      obtain ⟨n, rfl, -, hn⟩ := hn
      rw [List.singleton_append, List.mapM_cons, hn, ih]
      rfl

/-- Nodes of a symbol that is no keyword are significant. -/
theorem Perhaps.filter_eq {x : Symbol} {R : ParseNode → α → Prop} {nodes : List ParseNode}
    {a? : Option α}
    (h : Perhaps (One fun n a => n.symbol = x ∧ R n a) nodes a?) (hx : x.isKeyword = false) :
    (nodes.filter fun c => !c.symbol.isKeyword) = nodes := by
  cases h with
  | none => rfl
  | some hn =>
      obtain ⟨n, rfl, hn, -⟩ := hn
      rw [List.filter_cons_of_pos (by rw [hn, hx]; rfl), List.filter_nil]

theorem Each.filter_eq {x : Symbol} {R : ParseNode → α → Prop} {nodes : List ParseNode}
    {as : List α}
    (h : Each (One fun n a => n.symbol = x ∧ R n a) nodes as) (hx : x.isKeyword = false) :
    (nodes.filter fun c => !c.symbol.isKeyword) = nodes := by
  induction h with
  | nil => rfl
  | cons hn _ ih =>
      obtain ⟨n, rfl, hn, -⟩ := hn
      rw [List.singleton_append, List.filter_cons_of_pos (by rw [hn, hx]; rfl), ih]

theorem ok_bind (a : α) (f : α → Builder.Built β) : (Except.ok a >>= f) = f a := rfl

theorem keyword_builds (x : Symbol) (w : String) (hx : x.isKeyword = true) :
    Matches (Rules.keyword x w) (keyword x w) (One fun n _ => n.symbol.isKeyword = true) :=
  (Matches.leaf_text (scanWord [w])).map_one fun _ _ h => h.1 ▸ hx

/-! ## Fields and literals -/

theorem field_builds : Matches Rules.field field (Builds .field Builder.field) := by
  refine .branch ((Matches.leaf sameTokens_optionalMarker).maybe.row_cons fun marks marker hm => ?_)
  refine (Matches.leaf_text scanIdent).row_cons ?_
  rintro _ _ ⟨n, rfl, hx, rfl⟩
  refine .row_nil fun left text => ?_
  cases hm with
  | none => simp [Builder.field, Builder.fieldPart, ok_bind, hx, pure, Except.pure]
  | some hmark =>
      obtain ⟨k, rfl, hk, -⟩ := hmark
      simp [Builder.field, Builder.fieldPart, ok_bind, hx, hk, pure, Except.pure]

theorem fieldList_builds : Matches Rules.fieldList fieldList
    (Builds .fieldList Builder.fieldList) := by
  refine .branch (field_builds.commaSeparated.imp fun nodes fields h left text => ?_)
  exact h.mapM

theorem number_token : Matches Rules.number (token .number scanNumber)
    (One fun n a => n.symbol = .number ∧ n.text = String.ofList a) := by
  refine .leaf (R := fun w a => w = String.ofList a) fun s => ?_
  cases scanNumber s with
  | none => exact .inl ⟨rfl, rfl⟩
  | some found => exact .inr ⟨_, found.1, found.2, rfl, rfl, rfl⟩

theorem literal_builds : Matches Rules.literal literal (Builds .literal Builder.literal) := by
  refine .branch (.orElse ?_ (.orElse ?_ ?_))
  · refine (Matches.leaf_text scanString).map ?_
    rintro _ _ ⟨n, rfl, hx, rfl⟩ left text
    simp [Builder.literal, hx]
  · refine number_token.map ?_
    rintro _ _ ⟨n, rfl, hx, htext⟩ left text
    simp [Builder.literal, hx, htext]
  · refine (Matches.leaf_text (scanWord ["true", "false"])).map ?_
    rintro _ _ ⟨n, rfl, hx, rfl⟩ left text
    simp [Builder.literal, hx]

/-- Before a closing bracket. -/
theorem Matches.closed {m : Matcher} {p : Reader α} {f : α → β} {R : List ParseNode → α → Prop}
    {S : List ParseNode → β → Prop} (c : Char) (h : Matches m p R)
    (hS : ∀ nodes a, R nodes a → S nodes (f a)) :
    Matches (row [Grammar.spaced m, Grammar.spaced (Matcher.mark c)])
      (do
        let a ← Grammar.spaced p
        Grammar.spaced (char c)
        return f a) S := by
  refine h.spaced.row_cons fun nodes a ha => (Matches.mark c).spaced.row_cons ?_
  rintro _ _ rfl
  refine .row_nil ?_
  simpa using hS nodes a ha

/-- Between brackets, which leave no nodes. -/
theorem Matches.enclosed {m : Matcher} {p : Reader α} {f : α → β} {R : List ParseNode → α → Prop}
    {S : List ParseNode → β → Prop} (c d : Char) (h : Matches m p R)
    (hS : ∀ nodes a, R nodes a → S nodes (f a)) :
    Matches (row [Matcher.mark c, Grammar.spaced m, Grammar.spaced (Matcher.mark d)])
      (do
        char c
        let a ← Grammar.spaced p
        Grammar.spaced (char d)
        return f a) S := by
  refine (Matches.mark c).row_cons ?_
  rintro _ _ rfl
  exact h.closed d hS

theorem literalList_builds : Matches Rules.literalList literalList
    (Builds .literalList Builder.literalList) := by
  refine .branch (literal_builds.commaSeparated.enclosed '(' ')' (f := id) ?_)
  intro nodes as h left text
  exact h.mapM

/-! ## Values -/

theorem sign_builds {x : Symbol} {w : String} {c : Char} {op : ArithOp} (hw : w.toList = [c])
    (hop : ∀ n : ParseNode, n.symbol = x → Builder.arithOp n = .ok op) :
    Matches (Rules.sign x w) (sign x c op) (One fun n op => Builder.arithOp n = .ok op) := by
  refine (Matches.leaf (sameTokens_sign hw)).map ?_
  rintro _ _ ⟨n, rfl, hx, -⟩
  exact ⟨n, rfl, hop n hx⟩

theorem arithOp_builds : Matches Rules.arithOp arithOp
    (One fun n op => Builder.arithOp n = .ok op) := by
  refine .orElse (sign_builds rfl fun n hx => ?_) <| .orElse (sign_builds rfl fun n hx => ?_) <|
    .orElse (sign_builds rfl fun n hx => ?_) <| .orElse (sign_builds rfl fun n hx => ?_) <|
    sign_builds rfl fun n hx => ?_
  all_goals rw [Builder.arithOp, hx]

theorem Each.values {nodes : List ParseNode} {vs : List Value}
    (h : Each (Builds .value Builder.value) nodes vs) : Builder.values nodes = .ok vs := by
  induction h with
  | nil => rfl
  | cons hn _ ih =>
      obtain ⟨n, rfl, -, hn⟩ := hn
      rw [List.singleton_append, Builder.values, hn, ih]
      rfl

section Values

variable {m : Matcher} {p : Reader Value} (h : Matches m p (Builds .value Builder.value))

include h

theorem callOf_builds : Matches (Rules.callOf m) (callOf p)
    (Builds .call fun n => Builder.callParts n n.children) := by
  refine .branch ((Matches.leaf sameTokens_callName).row_cons ?_)
  rintro _ name ⟨n, rfl, -, hname⟩
  refine (Matches.mark '(').spaced.row_cons ?_
  rintro _ _ rfl
  refine h.commaSeparated.closed ')' fun nodes args hargs left text => ?_
  simp only [List.nil_append, List.singleton_append]
  rw [Builder.callParts, Builder.callName, hname, hargs.values]
  rfl

theorem valueTerm_builds : Matches (Rules.valueTerm m) (valueTerm p)
    (One fun n v => Builder.valueTerm n = .ok v) := by
  refine .orElse ?_ <| .orElse ?_ <| .orElse ?_ <| .orElse ?_ ?_
  · refine (Matches.leaf_text (scanWord ["null"])).map_one ?_
    rintro ⟨_, _, _, _⟩ _ ⟨rfl, -⟩
    rfl
  · refine literal_builds.map_one ?_
    rintro ⟨_, _, _, _⟩ _ ⟨rfl, hn⟩
    rw [Builder.valueTerm, hn]
    rfl
  · refine (callOf_builds h).map_one ?_
    rintro ⟨_, _, _, _⟩ _ ⟨rfl, hn⟩
    dsimp only at hn
    rw [Builder.valueTerm, hn]
    rfl
  · refine field_builds.map_one ?_
    rintro ⟨_, _, _, _⟩ _ ⟨rfl, hn⟩
    rw [Builder.valueTerm, hn]
    rfl
  · refine (Matches.branch (R := fun n v => Builder.valueTerm n = .ok v)
      (h.enclosed '(' ')' ?_)).imp_one fun _ _ => And.right
    rintro _ v ⟨n, rfl, -, hn⟩ left text
    rw [Builder.valueTerm, hn]
    rfl

theorem valueOf_builds : Matches (Rules.valueOf m) (valueOf p) (Builds .value Builder.value) := by
  -- an operator and a term add one item to the row that follows them
  have hnext : Matches (row [spaced Rules.arithOp, spaced (Rules.valueTerm m)])
      (do
        let op ← spaced arithOp
        let v ← spaced (valueTerm p)
        return (op, v)) fun nodes item => ∀ parent rest row,
          Builder.valueRest parent rest = .ok row →
            Builder.valueRest parent (nodes ++ rest) = .ok (item :: row) := by
    refine arithOp_builds.spaced.row_cons ?_
    rintro _ op ⟨o, rfl, ho⟩
    refine (valueTerm_builds h).spaced.row_cons ?_
    rintro _ v ⟨n, rfl, hn⟩
    refine .row_nil fun parent rest row hrest => ?_
    simp only [List.cons_append, List.nil_append, List.append_nil]
    rw [Builder.valueRest, ho, hn, hrest]
    rfl
  refine .branch ((valueTerm_builds h).row_cons ?_)
  rintro _ first ⟨n, rfl, hn⟩
  refine hnext.repeated.row_cons fun nodes row hrow => .row_nil fun left text => ?_
  have hrest : ∀ parent, Builder.valueRest parent nodes = .ok row := by
    intro parent
    induction hrow with
    | nil => rfl
    | cons hitem _ ih => exact hitem parent _ _ ih
  simp only [List.singleton_append, List.append_nil]
  rw [Builder.value, Builder.valueRow, hn, hrest]
  rfl

end Values

theorem value_builds (depth : Nat) : Matches (Rules.value depth) (value depth)
    (Builds .value Builder.value) := by
  induction depth with
  | zero => exact .fail
  | succ depth ih => exact .delay (valueOf_builds ih)

/-! ## Conditions -/

theorem operator_eq_ok_iff {ofToken? : String → Option α} {n : ParseNode} {a : α} :
    Builder.operator ofToken? n = .ok a ↔ ofToken? n.text = some a := by
  rw [Builder.operator]
  cases ofToken? n.text <;> simp

theorem notOp_builds : Matches Rules.notOp notOp (One fun n _ => n.symbol = .notOp) :=
  (Matches.leaf_text (scanWord ["not"])).map_one fun _ _ h => h.1

section Terms

variable {m : Matcher} {p : Reader Value} (h : Matches m p (Builds .value Builder.value))

include h

theorem comparison_builds : Matches (Rules.comparison m) (comparison p)
    (Builds .comparison Builder.comparison) := by
  refine .branch (h.row_cons ?_)
  rintro _ left ⟨l, rfl, -, hl⟩
  refine (Matches.leaf sameTokens_compareOp).spaced.row_cons ?_
  rintro _ op ⟨o, rfl, -, ho⟩
  refine h.spaced.row_cons ?_
  rintro _ right ⟨r, rfl, -, hr⟩
  refine .row_nil fun _ _ => ?_
  simp only [Builder.comparison, List.singleton_append, List.append_nil]
  rw [operator_eq_ok_iff.mpr ho, hl, hr]
  rfl

theorem lookupTarget_builds : Matches (Rules.literalList <|> m) (lookupTarget p)
    (One fun n t => Builder.lookupTarget n = .ok t) := by
  refine .orElse (literalList_builds.map_one ?_) (h.map_one ?_)
  · rintro n _ ⟨hx, hn⟩
    rw [Builder.lookupTarget, hx, hn]
    rfl
  · rintro n _ ⟨hx, hn⟩
    rw [Builder.lookupTarget, hx, hn]
    rfl

theorem lookup_builds : Matches (Rules.lookup m) (lookup p) (Builds .lookup Builder.lookup) := by
  refine .branch (field_builds.row_cons ?_)
  rintro _ f ⟨n, rfl, -, hf⟩
  refine notOp_builds.spaced.maybe.row_cons fun marks negation hmarks => ?_
  refine (Matches.leaf sameTokens_lookupOp).spaced.row_cons ?_
  rintro _ op ⟨o, rfl, hx, ho⟩
  refine (lookupTarget_builds h).spaced.row_cons ?_
  rintro _ target ⟨t, rfl, ht⟩
  refine .row_nil fun _ _ => ?_
  have hrest : ∀ parent negated, Builder.lookupRest parent f negated [o, t] =
      .ok (.lookup f negated op target) := by
    intro parent negated
    simp only [Builder.lookupRest]
    rw [operator_eq_ok_iff.mpr ho, ht]
    rfl
  cases hmarks with
  | none => simp [Builder.lookup, ok_bind, hx, hf, hrest]
  | some hmark =>
      obtain ⟨k, rfl, hk⟩ := hmark
      simp [Builder.lookup, ok_bind, hk, hf, hrest]

end Terms

/-- The nodes of a term under its negations: a row that goes on with them
goes on with the term. -/
def Negated (nodes : List ParseNode) (c : Condition) : Prop :=
  ∀ parent before rest, Builder.conditionFrom parent before 0 (nodes ++ rest) =
    Builder.conditionAfter parent (Builder.joined before (.ok c)) rest

theorem conditionFrom_nots {marks : List ParseNode} (h : ∀ m ∈ marks, m.symbol = .notOp)
    (parent : ParseNode) (before : Option (Builder.Built Condition × ParseNode)) (k : Nat)
    (rest : List ParseNode) :
    Builder.conditionFrom parent before k (marks ++ rest) =
      Builder.conditionFrom parent before (k + marks.length) rest := by
  induction marks generalizing k with
  | nil => rfl
  | cons m marks ih =>
      obtain ⟨hm, hmarks⟩ := List.forall_mem_cons.mp h
      rw [List.cons_append, Builder.conditionFrom, if_pos hm, ih hmarks, List.length_cons,
        Nat.add_right_comm, Nat.add_assoc]

theorem negated_of_nots {marks : List ParseNode} {n : ParseNode} {c : Condition}
    (hmarks : ∀ m ∈ marks, m.symbol = .notOp) (hx : n.symbol ≠ .notOp)
    (hn : Builder.conditionTerm n = .ok c) :
    Negated (marks ++ [n]) (c.negateTimes marks.length) := by
  intro parent before rest
  rw [List.append_assoc, conditionFrom_nots hmarks, List.singleton_append, Builder.conditionFrom,
    if_neg hx, hn, Nat.zero_add]
  rfl

theorem Each.nots {marks : List ParseNode} {nots : List Unit}
    (h : Each (One fun n _ => n.symbol = .notOp) marks nots) :
    (∀ m ∈ marks, m.symbol = .notOp) ∧ marks.length = nots.length := by
  induction h with
  | nil => exact ⟨List.forall_mem_nil _, rfl⟩
  | cons hn _ ih =>
      obtain ⟨n, rfl, hn⟩ := hn
      exact ⟨List.forall_mem_cons.mpr ⟨hn, ih.1⟩, congrArg (· + 1) ih.2⟩

section Rows

variable {m m' : Matcher} {p : Reader Value} {q : Reader Condition}
  (hv : Matches m p (Builds .value Builder.value))
  (hc : Matches m' q (Builds .condition Builder.condition))

include hv hc

theorem conditionTerm_builds : Matches (Rules.conditionTerm m m') (conditionTerm p q)
    (One fun n c => n.symbol ≠ .notOp ∧ Builder.conditionTerm n = .ok c) := by
  refine .orElse ?_ <| .orElse ?_ <| .orElse ?_ <| .orElse ?_ ?_
  · refine (comparison_builds hv).imp_one ?_
    rintro ⟨_, _, _, _⟩ _ ⟨rfl, hn⟩
    exact ⟨by simp, by rw [Builder.conditionTerm, hn]⟩
  · refine (lookup_builds hv).imp_one ?_
    rintro ⟨_, _, _, _⟩ _ ⟨rfl, hn⟩
    exact ⟨by simp, by rw [Builder.conditionTerm, hn]⟩
  · refine (Matches.leaf_text (scanWord ["true", "false"])).map_one ?_
    rintro ⟨_, _, _, _⟩ _ ⟨rfl, rfl⟩
    exact ⟨by simp, rfl⟩
  · refine (callOf_builds hv).map_one ?_
    rintro ⟨_, _, _, _⟩ _ ⟨rfl, hn⟩
    dsimp only at hn
    exact ⟨by simp, by rw [Builder.conditionTerm, hn]; rfl⟩
  · refine Matches.imp_one (.branch (R := fun n c => Builder.conditionTerm n = .ok c) ?_) ?_
    · refine hc.enclosed '(' ')' ?_
      rintro _ c ⟨n, rfl, -, hn⟩ left text
      rw [Builder.conditionTerm, hn]
      rfl
    · rintro ⟨_, _, _, _⟩ _ ⟨rfl, hn⟩
      exact ⟨by simp, hn⟩

theorem negatedTerm_builds : Matches (Rules.negatedTerm (Rules.conditionTerm m m'))
    (negatedTerm (conditionTerm p q)) Negated := by
  refine notOp_builds.spaced.repeated.row_cons fun marks nots hnots => ?_
  obtain ⟨hmarks, hlength⟩ := hnots.nots
  refine (conditionTerm_builds hv hc).spaced.row_cons ?_
  rintro _ c ⟨n, rfl, hx, hn⟩
  refine .row_nil ?_
  rw [List.append_nil, ← hlength]
  exact negated_of_nots hmarks hx hn

theorem conditionOf_builds : Matches (Rules.conditionOf m m') (conditionOf p q)
    (Builds .condition Builder.condition) := by
  -- a connective and a term are joined with all that stands before them
  have hnext : Matches
      (row [spaced Rules.logicOp, spaced (Rules.negatedTerm (Rules.conditionTerm m m'))])
      (do
        let op ← spaced (token .logicOp scanLogicOp)
        let c ← spaced (negatedTerm (conditionTerm p q))
        return (op, c)) fun nodes item => ∀ parent left rest,
          Builder.conditionAfter parent (.ok left) (nodes ++ rest) =
            Builder.conditionAfter parent (.ok (.logical item.1 left item.2)) rest := by
    refine (Matches.leaf sameTokens_logicOp).spaced.row_cons ?_
    rintro _ op ⟨o, rfl, hx, ho⟩
    refine (negatedTerm_builds hv hc).spaced.row_cons fun nodes c hnodes => ?_
    refine .row_nil fun parent left rest => ?_
    rw [List.append_nil, List.singleton_append, List.cons_append, Builder.conditionAfter, if_pos hx,
      hnodes, Builder.joined, Builder.connect, operator_eq_ok_iff.mpr ho]
    rfl
  refine .branch ((negatedTerm_builds hv hc).row_cons fun nodes first hfirst => ?_)
  refine hnext.repeated.row_cons fun more row hrow => .row_nil fun left text => ?_
  have hafter : ∀ parent, Builder.conditionAfter parent (.ok first) more =
      .ok (Condition.ofRow first row) := by
    intro parent
    clear hfirst
    induction hrow generalizing first with
    | nil => rfl
    | cons hitem _ ih => rw [hitem, ih]; rfl
  rw [List.append_nil, Builder.condition, hfirst]
  exact hafter _

end Rows

theorem condition_builds (depth : Nat) : Matches (Rules.condition depth) (condition depth)
    (Builds .condition Builder.condition) := by
  induction depth with
  | zero => exact .fail
  | succ depth ih => exact .delay (conditionOf_builds (value_builds (depth + 1)) ih)

/-! ## Queries -/

theorem category_builds : Matches Rules.category category (Builds .category Builder.category) := by
  refine .branch (.orElse ?_ (.orElse ?_ ?_))
  · refine (Matches.leaf_text (scanWord ["any"])).map ?_
    rintro _ _ ⟨n, rfl, hx, -⟩ left text
    simp [Builder.category, hx]
  · refine (Matches.leaf_text scanString).map ?_
    rintro _ _ ⟨n, rfl, hx, rfl⟩ left text
    simp [Builder.category, hx]
  · refine (Matches.leaf_text scanIdent).map ?_
    rintro _ _ ⟨n, rfl, hx, rfl⟩ left text
    simp [Builder.category, hx]

theorem argument_eq {x : Symbol} {left : Nat} {text what : String} {k n : ParseNode}
    (hk : k.symbol.isKeyword = true) (hn : n.symbol.isKeyword = false) :
    Builder.argument ⟨x, left, text, [k, n]⟩ what = .ok n := by
  simp [Builder.argument, ParseNode.significant, hk, hn]

theorem sequenceBy_builds : Matches Rules.sequenceBy sequenceBy
    (Builds .sequenceBy Builder.byClause) := by
  refine .branch ((keyword_builds .kwBy "by" rfl).row_cons ?_)
  rintro _ _ ⟨k, rfl, hk⟩
  refine fieldList_builds.spaced.row_last ?_
  rintro _ fields ⟨n, rfl, hn, hfields⟩ left text
  rw [List.append_nil, List.singleton_append, Builder.byClause,
    argument_eq hk (by rw [hn]; rfl), ok_bind, hfields]

section Queries

variable {m : Matcher} {p : Reader Condition}
  (h : Matches m p (Builds .condition Builder.condition))

include h

theorem simpleQuery_builds : Matches (Rules.simpleQuery m) (simpleQuery p)
    (Builds .simpleQuery Builder.simpleQuery) := by
  have hwhere : Matches (row [spaced (Rules.keyword .kwWhere "where"), spaced m])
      (do spaced (keyword .kwWhere "where"); spaced p)
      fun nodes c => ∃ k n, nodes = [k, n] ∧ k.symbol.isKeyword = true ∧
        n.symbol.isKeyword = false ∧ Builder.condition n = .ok c := by
    refine (keyword_builds .kwWhere "where" rfl).spaced.row_cons ?_
    rintro _ _ ⟨k, rfl, hk⟩
    refine h.spaced.row_last ?_
    rintro _ c ⟨n, rfl, hn, hc⟩
    exact ⟨k, n, rfl, hk, by rw [hn]; rfl, hc⟩
  refine .branch (category_builds.row_cons ?_)
  rintro _ c ⟨n, rfl, hn, hcategory⟩
  have hn : n.symbol.isKeyword = false := by rw [hn]; rfl
  refine hwhere.maybe.row_cons fun nodes filter hfilter => .row_nil fun left text => ?_
  cases hfilter with
  | none => simp [Builder.simpleQuery, ParseNode.significant, hn, hcategory]
  | some hfilter =>
      obtain ⟨k, f, rfl, hk, hf, hcond⟩ := hfilter
      simp [Builder.simpleQuery, ParseNode.significant, ok_bind, hn, hk, hf, hcategory, hcond]

theorem bracketed_builds : Matches (Rules.bracketed m) (bracketed p)
    (Builds .simpleQuery Builder.simpleQuery) :=
  (simpleQuery_builds h).enclosed '[' ']' (f := id) fun _ _ hq => hq

theorem sequenceStep_builds : Matches (Rules.sequenceStep m) (sequenceStep p)
    (Builds .sequenceStep Builder.sequenceStep) := by
  refine .branch ((bracketed_builds h).row_cons ?_)
  rintro _ q ⟨n, rfl, hn, hq⟩
  refine sequenceBy_builds.spaced.maybe.row_cons fun nodes keys hkeys => ?_
  refine .row_nil fun left text => ?_
  cases hkeys with
  | none => simp [Builder.sequenceStep, hq]
  | some hkeys =>
      obtain ⟨k, rfl, -, hkeys⟩ := hkeys
      simp [Builder.sequenceStep, ok_bind, hq, hkeys]

theorem sampleStep_builds : Matches (Rules.sampleStep m) (sampleStep p)
    (Builds .sampleStep Builder.sampleStep) := by
  refine .branch ((bracketed_builds h).imp ?_)
  rintro _ q ⟨n, rfl, hn, hq⟩ left text
  exact hq

theorem sampleQuery_builds : Matches (Rules.sampleQuery m) (sampleQuery p)
    (Builds .sampleQuery Builder.sampleQuery) := by
  refine .branch ((keyword_builds .kwSample "sample" rfl).row_cons ?_)
  rintro _ _ ⟨k, rfl, hk⟩
  refine (keyword_builds .kwBy "by" rfl).spaced.row_cons ?_
  rintro _ _ ⟨k', rfl, hk'⟩
  refine fieldList_builds.spaced.row_cons ?_
  rintro _ keys ⟨n, rfl, hn, hkeys⟩
  have hstep := (sampleStep_builds h).spaced
  refine (hstep.repeated1 hstep).row_cons fun nodes steps hsteps => .row_nil fun left text => ?_
  have hfold : ∀ before, nodes.foldlM Builder.samplePart ⟨keys, before⟩ =
      .ok ⟨keys, before ++ steps⟩ := by
    induction hsteps with
    | nil => intro before; rw [List.append_nil]; rfl
    | cons hs _ ih =>
        obtain ⟨s, rfl, hs, hstep⟩ := hs
        intro before
        simp [Builder.samplePart, hs, hstep, ok_bind, ih]
  have hkeyword : n.symbol.isKeyword = false := by rw [hn]; rfl
  have hparts : ParseNode.significant
      ⟨.sampleQuery, left, text, [k] ++ ([k'] ++ ([n] ++ (nodes ++ [])))⟩ = n :: nodes := by
    simp [ParseNode.significant, hk, hk', hkeyword, hsteps.filter_eq rfl]
  rw [Builder.sampleQuery, hparts, List.foldlM_cons, Builder.samplePart, hn, hkeys]
  exact hfold []

end Queries

end Grammar

end EventQuery
