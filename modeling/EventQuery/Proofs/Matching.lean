import EventQuery.Proofs.Reading
import EventQuery.Proofs.Tokens
import EventQuery.Grammar.ParseTree
import Mathlib.Data.List.Basic

/-!
# Matchers and readers

A matcher and a direct reader of one symbol take the same of every text.
The matcher gives nodes, the reader gives what they stand for; `Matches m p
R` says that the two go together, with `R` between nodes and value. There
is one lemma for each combinator of matchers, paired with the one of readers
that stands for it.

At the tokens a matcher keeps the characters, and a reader tells at once
which operator or function they spell. `SameTokens` says that reading the
characters back gives the same.
-/

namespace EventQuery.Grammar

open Reader Matcher

variable {α β : Type}

/-! ## What matchers read -/

theorem read_leaf (x : Symbol) (scan : List Char → Option (String × List Char)) (s : List Char) :
    (leaf x scan).read s = (scan s).map fun found => ([⟨x, s.length, found.1, []⟩], found.2) := by
  rw [leaf, read_bind, read_located, read_token]
  cases scan s <;> rfl

theorem read_spanned (p : Reader α) (s : List Char) : (spanned p).read s =
    (p.read s).map fun found => ((s.take (s.length - found.2.length), found.1), found.2) := by
  dsimp only [spanned]
  cases p.read s <;> rfl

theorem read_branch (x : Symbol) (m : Matcher) (s : List Char) : (branch x m).read s =
    (m.read s).map fun found =>
      ([⟨x, s.length, String.ofList (s.take (s.length - found.2.length)), found.1⟩], found.2) := by
  rw [branch, read_named, read_bind, read_located, read_spanned]
  cases m.read s <;> rfl

theorem read_mark (c : Char) (s : List Char) :
    (mark c).read s = ((char c).read s).map fun found => ([], found.2) := by
  rw [mark, read_bind]
  cases (char c).read s <;> rfl

theorem read_row_cons (m : Matcher) (ms : List Matcher) (s : List Char) : (row (m :: ms)).read s =
    (m.read s).bind fun found =>
      ((row ms).read found.2).map fun more => (found.1 ++ more.1, more.2) := by
  rw [row, read_bind]
  refine congrArg _ (funext fun found => ?_)
  rw [read_bind]
  cases (row ms).read found.2 <;> rfl

theorem read_maybe (m : Matcher) (s : List Char) :
    (maybe m).read s = some ((m.read s).getD ([], s)) := by
  rw [maybe, read_bind]
  cases hm : m.read s with
  | none => rw [read_optional_none hm]; rfl
  | some found => rw [read_optional_some hm]; rfl

theorem read_repeated (m : Matcher) (s : List Char) : (repeated m).read s =
    some ((readMany m (s.length + 1) s).1.flatten, (readMany m (s.length + 1) s).2) := by
  rw [repeated, read_bind]
  rfl

/-! ## Matchers and readers -/

/-- A matcher and a reader on one text either fail both, or both succeed and
leave the same. -/
inductive MatchesAt (m : Matcher) (p : Reader α) (R : List ParseNode → α → Prop) (s : List Char) :
    Prop
  | fails (hm : m.read s = none) (hp : p.read s = none)
  | takes {nodes : List ParseNode} {a : α} {rest : List Char} (hm : m.read s = some (nodes, rest))
      (hp : p.read s = some (a, rest)) (h : R nodes a)

/-- A matcher and a reader take the same of every text, and `R` holds of the
nodes and the value. -/
structure Matches (m : Matcher) (p : Reader α) (R : List ParseNode → α → Prop) : Prop where
  on (s : List Char) : MatchesAt m p R s

/-- No nodes and no value, or nodes of which `R` holds. -/
inductive Perhaps (R : List ParseNode → α → Prop) : List ParseNode → Option α → Prop
  | none : Perhaps R [] none
  | some {nodes : List ParseNode} {a : α} (h : R nodes a) : Perhaps R nodes (some a)

/-- Nodes one after the other, and `R` holds of them item by item. -/
inductive Each (R : List ParseNode → α → Prop) : List ParseNode → List α → Prop
  | nil : Each R [] []
  | cons {nodes more : List ParseNode} {a : α} {as : List α} (h : R nodes a) (hs : Each R more as) :
      Each R (nodes ++ more) (a :: as)

namespace Matches

variable {m m' : Matcher} {ms : List Matcher} {p q : Reader α} {R R' : List ParseNode → α → Prop}
  {S : List ParseNode → β → Prop}

theorem imp (h : Matches m p R) (hR : ∀ nodes a, R nodes a → R' nodes a) : Matches m p R' := by
  refine ⟨fun s => ?_⟩
  cases h.on s with
  | fails hm hp => exact .fails hm hp
  | takes hm hp ha => exact .takes hm hp (hR _ _ ha)

/-- What holds of all that the reader reads, holds of what the nodes stand
for. -/
theorem exists_of_yields {P : α → Prop} (h : Matches m p R) (hp : p.Yields P)
    {s rest : List Char} {nodes : List ParseNode} (hm : m.read s = some (nodes, rest)) :
    ∃ a, R nodes a ∧ P a := by
  cases h.on s with
  | fails hm' hp' => cases hm'.symm.trans hm
  | takes hm' hp' ha =>
      cases hm'.symm.trans hm
      exact ⟨_, ha, hp hp'⟩

theorem spaced (h : Matches m p R) : Matches (spaced m) (Grammar.spaced p) R := by
  refine ⟨fun s => ?_⟩
  cases h.on (skipGap s) with
  | fails hm hp => exact .fails hm hp
  | takes hm hp ha => exact .takes hm hp ha

theorem fail : Matches Reader.fail (Reader.fail : Reader α) R := ⟨fun _ => .fails rfl rfl⟩

theorem delay {f : Unit → Matcher} {g : Unit → Reader α} (h : Matches (f ()) (g ()) R) :
    Matches (delay f) (Reader.delay g) R := by
  refine ⟨fun s => ?_⟩
  cases h.on s with
  | fails hm hp => exact .fails hm hp
  | takes hm hp ha => exact .takes hm hp ha

theorem map {g : α → β} (h : Matches m p R) (hS : ∀ nodes a, R nodes a → S nodes (g a)) :
    Matches m (p >>= fun a => pure (g a)) S := by
  refine ⟨fun s => ?_⟩
  cases h.on s with
  | fails hm hp => exact .fails hm (by rw [read_bind, hp]; rfl)
  | takes hm hp ha => exact .takes hm (by rw [read_bind, hp]; rfl) (hS _ _ ha)

theorem orElse (h : Matches m p R) (h' : Matches m' q R) : Matches (m <|> m') (p <|> q) R := by
  refine ⟨fun s => ?_⟩
  cases h.on s with
  | takes hm hp ha =>
      exact .takes (by rw [read_orElse, hm]; rfl) (by rw [read_orElse, hp]; rfl) ha
  | fails hm hp =>
      have hms : (m <|> m').read s = m'.read s := by rw [read_orElse, hm]; rfl
      have hps : (p <|> q).read s = q.read s := by rw [read_orElse, hp]; rfl
      cases h'.on s with
      | fails hm' hp' => exact .fails (hms.trans hm') (hps.trans hp')
      | takes hm' hp' ha => exact .takes (hms.trans hm') (hps.trans hp') ha

/-- A character leaves no node. -/
theorem mark (c : Char) : Matches (mark c) (char c) fun nodes _ => nodes = [] := by
  refine ⟨fun s => ?_⟩
  cases hs : (char c).read s with
  | none => exact .fails (by rw [read_mark, hs]; rfl) hs
  | some found => exact .takes (by rw [read_mark, hs]; rfl) hs rfl

theorem row_nil {b : β} (h : S [] b) : Matches (row []) (pure b) S := ⟨fun _ => .takes rfl rfl h⟩

/-- One after the other. What comes after the first part is told its nodes
and its value. -/
theorem row_cons {f : α → Reader β} (h : Matches m p R)
    (hf : ∀ nodes a, R nodes a → Matches (row ms) (f a) fun more b => S (nodes ++ more) b) :
    Matches (row (m :: ms)) (p >>= f) S := by
  refine ⟨fun s => ?_⟩
  cases h.on s with
  | fails hm hp =>
      exact .fails (by rw [read_row_cons, hm]; rfl) (by rw [read_bind, hp]; rfl)
  | @takes nodes a rest hm hp ha =>
      have hms : (row (m :: ms)).read s =
          ((row ms).read rest).map fun more => (nodes ++ more.1, more.2) := by
        rw [read_row_cons, hm]
        rfl
      have hps : (p >>= f).read s = (f a).read rest := by rw [read_bind, hp]; rfl
      cases (hf _ _ ha).on rest with
      | fails hm' hp' => exact .fails (by rw [hms, hm']; rfl) (hps.trans hp')
      | takes hm' hp' hb => exact .takes (by rw [hms, hm']; rfl) (hps.trans hp') hb

theorem row_last (h : Matches m p R) (hS : ∀ nodes a, R nodes a → R' (nodes ++ []) a) :
    Matches (row [m]) p R' := by
  refine ⟨fun s => ?_⟩
  cases h.on s with
  | fails hm hp => exact .fails (by rw [read_row_cons, hm]; rfl) hp
  | takes hm hp ha => exact .takes (by rw [read_row_cons, hm]; rfl) hp (hS _ _ ha)

theorem maybe (h : Matches m p R) : Matches (maybe m) p.optional (Perhaps R) := by
  refine ⟨fun s => ?_⟩
  cases h.on s with
  | fails hm hp => exact .takes (by rw [read_maybe, hm]; rfl) (read_optional_none hp) .none
  | takes hm hp ha =>
      exact .takes (by rw [read_maybe, hm]; rfl) (read_optional_some hp) (.some ha)

theorem readMany (h : Matches m p R) (n : Nat) (s : List Char) :
    Each R (Reader.readMany m n s).1.flatten (Reader.readMany p n s).1 ∧
      (Reader.readMany m n s).2 = (Reader.readMany p n s).2 := by
  induction n generalizing s with
  | zero => exact ⟨.nil, rfl⟩
  | succ n ih =>
      rw [Reader.readMany, Reader.readMany]
      cases h.on s with
      | fails hm hp =>
          rw [hm, hp]
          exact ⟨.nil, rfl⟩
      | takes hm hp ha =>
          rw [hm, hp]
          obtain ⟨hall, hrest⟩ := ih _
          exact ⟨.cons ha hall, hrest⟩

theorem repeated (h : Matches m p R) : Matches (repeated m) p.many (Each R) := by
  refine ⟨fun s => ?_⟩
  obtain ⟨hall, hrest⟩ := h.readMany (s.length + 1) s
  refine .takes (read_repeated m s) ?_ hall
  rw [hrest]
  rfl

theorem repeated1 (h : Matches m p R) (h' : Matches m' q R) :
    Matches (repeated1 m m') (many1 p q) (Each R) := by
  refine h.row_cons fun nodes a ha => h'.repeated.row_cons fun more as has => row_nil ?_
  rw [List.append_nil]
  exact .cons ha has

theorem commaSeparated (h : Matches m p R) :
    Matches (Matcher.commaSeparated m) (Grammar.commaSeparated p) (Each R) := by
  refine h.repeated1 ((mark ',').spaced.row_cons fun nodes _ hnodes => ?_)
  exact h.spaced.row_last fun more a ha => by rwa [hnodes, List.nil_append, List.append_nil]

end Matches

/-! ## Nodes -/

/-- One node, of which `R` holds. -/
def One (R : ParseNode → α → Prop) (nodes : List ParseNode) (a : α) : Prop :=
  ∃ n, nodes = [n] ∧ R n a

/-- Two scanners take the same of every text, and `R` holds of what they
give. -/
def SameTokens (R : String → α → Prop) (scan : List Char → Option (String × List Char))
    (scan' : List Char → Option (α × List Char)) : Prop :=
  ∀ s, (scan s = none ∧ scan' s = none) ∨
    ∃ w a rest, scan s = some (w, rest) ∧ scan' s = some (a, rest) ∧ R w a

namespace Matches

/-- A leaf is the token that a scanner takes. -/
theorem leaf {x : Symbol} {scan : List Char → Option (String × List Char)}
    {scan' : List Char → Option (α × List Char)} {R : String → α → Prop}
    (h : SameTokens R scan scan') :
    Matches (leaf x scan) (token x scan') (One fun n a => n.symbol = x ∧ R n.text a) := by
  refine ⟨fun s => ?_⟩
  rcases h s with ⟨hnone, hnone'⟩ | ⟨w, a, rest, hsome, hsome', ha⟩
  · exact .fails (by rw [read_leaf, hnone]; rfl) hnone'
  · exact .takes (by rw [read_leaf, hsome]; rfl) hsome' ⟨_, rfl, rfl, ha⟩

/-- A leaf whose text is the value. -/
theorem leaf_text {x : Symbol} (scan : List Char → Option (String × List Char)) :
    Matches (Matcher.leaf x scan) (token x scan) (One fun n a => n.symbol = x ∧ n.text = a) := by
  refine .leaf (R := fun w a => w = a) fun s => ?_
  cases scan s with
  | none => exact .inl ⟨rfl, rfl⟩
  | some found => exact .inr ⟨found.1, found.1, found.2, rfl, rfl, rfl⟩

theorem branch {x : Symbol} {m : Matcher} {p : Reader α} {R : ParseNode → α → Prop}
    (h : Matches m p fun children a => ∀ left text, R ⟨x, left, text, children⟩ a) :
    Matches (branch x m) (named x p) (One fun n a => n.symbol = x ∧ R n a) := by
  refine ⟨fun s => ?_⟩
  cases h.on s with
  | fails hm hp => exact .fails (by rw [read_branch, hm]; rfl) hp
  | takes hm hp ha => exact .takes (by rw [read_branch, hm]; rfl) hp ⟨_, rfl, rfl, ha _ _⟩

theorem imp_one {m : Matcher} {p : Reader α} {R S : ParseNode → α → Prop} (h : Matches m p (One R))
    (hS : ∀ n a, R n a → S n a) : Matches m p (One S) :=
  h.imp fun _ a ⟨n, hn, ha⟩ => ⟨n, hn, hS n a ha⟩

theorem map_one {m : Matcher} {p : Reader α} {g : α → β} {R : ParseNode → α → Prop}
    {S : ParseNode → β → Prop} (h : Matches m p (One R)) (hS : ∀ n a, R n a → S n (g a)) :
    Matches m (p >>= fun a => pure (g a)) (One S) :=
  h.map fun _ a ⟨n, hn, ha⟩ => ⟨n, hn, hS n a ha⟩

end Matches

/-! ## Tokens -/

section SameTokens

variable {R : String → α → Prop} {scan : List Char → Option (String × List Char)}
  {scan' : List Char → Option (α × List Char)}

theorem SameTokens.of_map (spell : α → String)
    (h : ∀ s, scan s = (scan' s).map fun found => (spell found.1, found.2))
    (hR : ∀ a, R (spell a) a) : SameTokens R scan scan' := by
  intro s
  rw [h s]
  cases scan' s with
  | none => exact .inl ⟨rfl, rfl⟩
  | some found => exact .inr ⟨_, _, _, rfl, rfl, hR found.1⟩

/-- The second scanner reads the token of the first back, which it always
can. -/
theorem SameTokens.of_bind {ofToken? : String → Option α}
    (h : ∀ s, scan' s = (scan s).bind fun found => (ofToken? found.1).map (·, found.2))
    (hsome : ∀ s w rest, scan s = some (w, rest) → (ofToken? w).isSome) :
    SameTokens (fun w a => ofToken? w = some a) scan scan' := by
  intro s
  rw [h s]
  cases hs : scan s with
  | none => exact .inl ⟨rfl, rfl⟩
  | some found =>
      obtain ⟨a, ha⟩ := Option.isSome_iff_exists.mp (hsome s _ _ hs)
      refine .inr ⟨found.1, a, found.2, rfl, ?_, ha⟩
      rw [Option.bind_some, ha, Option.map_some]

end SameTokens

theorem sameTokens_sign {w : String} {c : Char} (hw : w.toList = [c]) :
    SameTokens (fun _ _ => True) (scanSpelling [w]) (scanSign c) := by
  refine .of_map (fun _ => w) (fun s => ?_) fun _ => trivial
  have hlength : w.length = 1 := by rw [← String.length_toList, hw]; rfl
  cases s with
  | nil => simp [scanSpelling, scanSign, hw]
  | cons d s =>
      by_cases hd : d = c
      · simp [scanSpelling, scanSign, hw, hd, hlength]
      · simp [scanSpelling, scanSign, hw, hd, Ne.symm hd]

theorem sameTokens_optionalMarker :
    SameTokens (fun _ _ => True) (scanSpelling ["?"]) scanOptionalMarker := by
  have hsame : scanOptionalMarker = scanSign '?' := by
    funext s
    rw [scanOptionalMarker.eq_def]
    split
    · rfl
    · rename_i hs
      cases s with
      | nil => rfl
      | cons d s => exact (if_neg fun hd => hs s (by rw [hd])).symm
  exact hsame ▸ sameTokens_sign rfl

theorem sameTokens_compareOp : SameTokens (fun w op => CompareOp.ofToken? w = some op)
    (scanSpelling ["==", "!=", ">=", "<=", ">", "<"]) scanCompareOp := by
  refine .of_map CompareOp.token (fun s => ?_) fun op => by cases op <;> rfl
  have htokens : ["==", "!=", ">=", "<=", ">", "<"] = CompareOp.all.map CompareOp.token := rfl
  rw [scanSpelling, scanCompareOp, htokens, List.find?_map, Option.map_map, Option.map_map]
  rfl

theorem sameTokens_logicOp : SameTokens (fun w op => LogicOp.ofToken? w = some op)
    (scanWord ["and", "or"]) scanLogicOp := by
  refine .of_bind (fun s => ?_) fun s w rest hs => ?_
  · rw [scanLogicOp, LogicOp.ofToken?, lowerToken_lowerWord]
    rcases scanWord_cases ["and", "or"] s with ⟨hmem, hscan⟩ | ⟨-, hscan⟩
    · rw [hscan, Option.bind_none, Option.map_eq_none_iff]
      refine List.find?_eq_none.mpr fun op hop htoken => hmem ?_
      rw [← eq_of_beq htoken]
      exact List.mem_map.mpr ⟨op, hop, rfl⟩
    · rw [hscan, Option.bind_some, LogicOp.ofToken?, lowerToken_takeWhile]
  · have hsome : ∀ v ∈ ["and", "or"], (LogicOp.all.find? fun op => op.token == v).isSome := by
      decide
    exact hsome _ (scanWord_sound hs)

theorem lowerToken_append (t t' : String) :
    lowerToken (t ++ t') = lowerToken t ++ lowerToken t' := by
  simp [lowerToken, String.toList_append]

/-- There is a tilde, or there is none. -/
theorem takeTilde_cases (word : String) (s : List Char) :
    (∃ rest, s = '~' :: rest ∧ takeTilde word s = (word ++ "~", rest)) ∨
    ((∀ rest, s ≠ '~' :: rest) ∧ takeTilde word s = (word, s)) := by
  rw [takeTilde.eq_def]
  split
  · rename_i rest
    exact .inl ⟨rest, rfl, rfl⟩
  · rename_i hs
    exact .inr ⟨hs, rfl⟩

theorem sameTokens_lookupOp : SameTokens (fun w op => LookupOp.ofToken? w = some op)
    scanLookup scanLookupOp := by
  have hcongr : ∀ {t t'}, lowerToken t = lowerToken t' →
      LookupOp.ofToken? t = LookupOp.ofToken? t' := by
    intro t t' h
    rw [LookupOp.ofToken?, LookupOp.ofToken?, h]
  intro s
  by_cases hcolon : ∃ rest, s = ':' :: rest
  · obtain ⟨rest, rfl⟩ := hcolon
    exact .inr ⟨":", .colon, rest, rfl, rfl, rfl⟩
  have hne : ∀ rest, s ≠ ':' :: rest := fun rest h => hcolon ⟨rest, h⟩
  rw [scanLookup.eq_2 s hne, scanLookupOp.eq_2 s hne]
  rcases scanWord_cases ["like", "regex", "in"] s with ⟨hmem, hscan⟩ | ⟨hmem, hscan⟩
  · rw [hscan, if_neg (by simpa using hmem)]
    exact .inl ⟨rfl, rfl⟩
  obtain ⟨hplain, htilde⟩ := lookupOp_isSome _ hmem
  obtain ⟨op, hop⟩ := Option.isSome_iff_exists.mp hplain
  obtain ⟨op', hop'⟩ := Option.isSome_iff_exists.mp htilde
  have hlower := (lowerToken_takeWhile s).trans (lowerToken_lowerWord s).symm
  have hlower' := congrArg (· ++ lowerToken "~") hlower
  simp only [← lowerToken_append] at hlower'
  rw [hscan, if_pos (List.contains_iff_mem.mpr hmem), hop, hop']
  dsimp only
  rcases takeTilde_cases (String.ofList (s.takeWhile isWordChar)) (s.dropWhile isWordChar) with
    ⟨rest, hdrop, htake⟩ | ⟨hdrop, htake⟩
  · rw [htake, hdrop]
    cases hends : wordEnds rest with
    | false => exact .inl ⟨by simp, by simp [hends]⟩
    | true =>
        exact .inr ⟨_, op', rest, by simp, by simp [hends], (hcongr hlower').trans hop'⟩
  · have hends : wordEnds (s.dropWhile isWordChar) = true :=
      wordEnds_iff.mpr (halts_dropWhile isWordChar s)
    rw [htake]
    refine .inr ⟨_, op, s.dropWhile isWordChar, if_pos hends, ?_, (hcongr hlower).trans hop⟩
    split
    · rename_i hfound
      exact absurd hfound (hdrop _)
    · rfl

theorem splitTilde_of_word {raw : String} (h : ∀ c ∈ raw.toList, isWordChar c = true) :
    splitTilde raw = (raw, false) := by
  rw [splitTilde]
  split
  · rename_i rest hreverse
    have hmem : '~' ∈ raw.toList := by
      rw [← List.mem_reverse, hreverse]
      exact List.mem_cons_self
    cases h '~' hmem
  · rfl

theorem splitTilde_append_tilde (raw : String) : splitTilde (raw ++ "~") = (raw, true) := by
  simp [splitTilde, String.toList_append]

theorem sameTokens_callName : SameTokens (fun w name => CallName.ofToken? w = some name)
    scanFunction scanCallName := by
  have hnames : functionWords.Perm (Builtin.all.map fun f => lowerToken f.name) := by decide
  intro s
  rw [scanFunction, scanCallName, Builtin.ofToken?, lowerToken_lowerWord]
  rcases scanWord_cases functionWords s with ⟨hmem, hscan⟩ | ⟨hmem, hscan⟩
  · have hnone : (Builtin.all.find? fun f => lowerToken f.name == lowerWord s) = none := by
      refine List.find?_eq_none.mpr fun f hf hname => hmem (hnames.mem_iff.mpr ?_)
      exact List.mem_map.mpr ⟨f, hf, eq_of_beq hname⟩
    rw [hscan, hnone]
    exact .inl ⟨rfl, rfl⟩
  · obtain ⟨f, hf⟩ :
        ∃ f, (Builtin.all.find? fun f => lowerToken f.name == lowerWord s) = some f := by
      obtain ⟨f, hf, hname⟩ := List.mem_map.mp (hnames.mem_iff.mp hmem)
      exact Option.isSome_iff_exists.mp (List.find?_isSome.mpr ⟨f, hf, beq_iff_eq.mpr hname⟩)
    have hraw : ∀ c ∈ (String.ofList (s.takeWhile isWordChar)).toList, isWordChar c = true := by
      rw [String.toList_ofList]
      exact fun c hc => List.mem_takeWhile_imp hc
    have hbuiltin : Builtin.ofToken? (String.ofList (s.takeWhile isWordChar)) = some f := by
      rw [Builtin.ofToken?, lowerToken_takeWhile, hf]
    rw [hscan, hf]
    dsimp only [Option.map_some]
    rcases takeTilde_cases (String.ofList (s.takeWhile isWordChar)) (s.dropWhile isWordChar) with
      ⟨rest, hdrop, htake⟩ | ⟨hdrop, htake⟩
    · rw [htake, hdrop]
      refine .inr ⟨_, ⟨f, true⟩, rest, rfl, rfl, ?_⟩
      simp only [CallName.ofToken?, splitTilde_append_tilde, hbuiltin, Option.map_some]
    · rw [htake]
      refine .inr ⟨_, ⟨f, false⟩, s.dropWhile isWordChar, rfl, ?_, ?_⟩
      · split
        · rename_i hfound
          exact absurd hfound (hdrop _)
        · rfl
      · simp only [CallName.ofToken?, splitTilde_of_word hraw, hbuiltin, Option.map_some]

end EventQuery.Grammar
