import EventQuery.Proofs.ExtractionAgreement

/-!
# Passes over several trees

A session sends trees through one pass and hands over the errors when it is
asked for them. Its state goes through every node of every tree, so a node
might see what another tree left behind. Here it is shown what of this can
be seen: `Session.replies` are the answers to a list of requests, and each
of them depends on the requests before it only through

- the trees sent since the errors were last taken (`pending`), whose errors
  are handed over, and
- for the pass that takes constants out, how many constants the trees before
  had (`trees`), since numbers run on.

From any state, rewriting a tree gives what the pass without a state gives,
and adds to the state what that pass gathers (`Expr.run_rewrite_recording`,
`Expr.run_rewrite_visit`). So the state after some requests is known
(`Session.after_start`), and the answers are read off it
(`replies_isolated`).
-/

namespace EventQuery

theorem Expr.listSlots_concat (es : List Expr) (e : Expr) :
    listSlots (es ++ [e]) = listSlots es ++ e.slots := by
  induction es with
  | nil => exact (listSlots_cons e []).trans (List.append_nil _)
  | cons e' es ih => rw [List.cons_append, listSlots_cons, listSlots_cons, ih, List.append_assoc]

/-- Constants with different numbers leave different placeholders. -/
theorem holes_nodup {cs : List Const} (h : ∀ c ∈ cs, c.isBool = false) (taken : Nat) :
    (holes taken cs).Nodup := by
  rw [holes, List.Nodup, List.pairwise_map, List.pairwise_iff_getElem]
  intro i j hi hj hlt heq
  rw [List.length_zipIdx] at hi hj
  simp only [List.getElem_zipIdx, Const.hole_eq (h _ (List.getElem_mem hi)),
    Const.hole_eq (h _ (List.getElem_mem hj)), Expr.symbol.injEq] at heq
  have hnumber := placeholder_number_inj heq
  omega

theorem Expr.isBool_of_mem_listSlots {c : Const} {es : List Expr} (h : c ∈ listSlots es) :
    c.isBool = false := by
  simpa using (List.mem_filter.mp h).2

theorem Parameters.get?_named_iff {ps : Parameters} {name : String} {c : Const} :
    ps.named.get? name = some c ↔ ∃ i, name = "P_" ++ toString (i + 1) ∧ ps[i]? = some c := by
  constructor
  · intro h
    obtain ⟨before, after, hentries, -⟩ := List.lookup_eq_some_iff.mp h
    have hmem : (name, c) ∈ ps.named.entries := by
      rw [hentries]
      exact List.mem_append_right _ List.mem_cons_self
    obtain ⟨i, hc, hname⟩ := mem_named_iff.mp hmem
    exact ⟨i, hname, hc⟩
  · rintro ⟨i, rfl, hc⟩
    exact NameMap.get?_of_mem (mem_named_iff.mpr ⟨i, hc, rfl⟩)

/-! ## One tree, from any state -/

/-- One computation after another. -/
theorem run_bind_of_run {σ α β : Type} {x : StateM σ α} {s s' : σ} {a : α}
    (h : x.run s = (a, s')) (f : α → StateM σ β) : (x >>= f).run s = (f a).run s' := by
  rw [StateT.run_bind, h]
  rfl

namespace Expr

section Recording

variable {step : Expr → Except SoftError Expr}

/-- The last visit of a node puts its own error after those of its parts. -/
theorem run_recording (node : Mapped Expr) (errors : List SoftError) :
    (recording step node.result).run (errors ++ node.errors) =
      ((Mapped.finish step node).result, errors ++ (Mapped.finish step node).errors) := by
  cases h : step node.result with
  | ok t =>
      rw [recording, finish_of_ok h, h]
      rfl
  | error x =>
      rw [recording, finish_of_error h, h, ← List.append_assoc]
      rfl

theorem run_rewriteList_recording {es : List Expr}
    (ih : ∀ e ∈ es, ∀ errors, (e.rewrite (recording step)).run errors =
      ((bottomUp step e).result, errors ++ (bottomUp step e).errors)) (errors : List SoftError) :
    (rewriteList (recording step) es).run errors =
      ((bottomUpList step es).result, errors ++ (bottomUpList step es).errors) := by
  induction es generalizing errors with
  | nil =>
      rw [rewriteList, bottomUpList, List.append_nil]
      rfl
  | cons e es ihes =>
      obtain ⟨he, hes⟩ := List.forall_mem_cons.mp ih
      rw [rewriteList, run_bind_of_run (he errors), run_bind_of_run (ihes hes _), bottomUpList,
        List.append_assoc]
      rfl

/-- Rewriting by a step adds the errors of the tree to those that are there,
and those that are there have no part in the tree. -/
theorem run_rewrite_recording (e : Expr) (errors : List SoftError) :
    (e.rewrite (recording step)).run errors =
      ((bottomUp step e).result, errors ++ (bottomUp step e).errors) := by
  have hleaf : ∀ (leaf : Expr) (errors : List SoftError), (recording step leaf).run errors =
      ((Mapped.finish step ⟨leaf, []⟩).result,
        errors ++ (Mapped.finish step ⟨leaf, []⟩).errors) := by
    intro leaf errors
    rw [← run_recording ⟨leaf, []⟩ errors, List.append_nil]
  induction e generalizing errors with
  | group e ih =>
      rw [rewrite, run_bind_of_run (ih errors)]
      exact run_recording ⟨.group _, _⟩ errors
  | binary op left right ihl ihr =>
      rw [rewrite, run_bind_of_run (ihl errors), run_bind_of_run (ihr _), List.append_assoc]
      exact run_recording ⟨.binary op _ _, _⟩ errors
  | unary op args ih =>
      rw [rewrite, run_bind_of_run (run_rewriteList_recording ih errors)]
      exact run_recording ⟨.unary op _, _⟩ errors
  | call name args ih =>
      rw [rewrite, run_bind_of_run (run_rewriteList_recording ih errors)]
      exact run_recording ⟨.call name _, _⟩ errors
  | array items ih =>
      rw [rewrite, run_bind_of_run (run_rewriteList_recording ih errors)]
      exact run_recording ⟨.array _, _⟩ errors
  | _ => exact hleaf _ errors

end Recording

end Expr

/-! ### Constants -/

/-- The state of an extraction that has taken these constants out. -/
def Extraction.having (taken : Parameters) : Extraction := ⟨taken.length, taken.named⟩

theorem Parameters.named_concat (ps : Parameters) (c : Const) :
    (ps ++ [c]).named = ps.named.insert (Parameters.name (ps.length + 1)) c := by
  simp [named, NameMap.ofList, List.zipIdx_append]

theorem Extraction.having_concat (taken : Parameters) (c : Const) :
    having (taken ++ [c]) =
      ⟨taken.length + 1, taken.named.insert (Parameters.name (taken.length + 1)) c⟩ := by
  rw [having, List.length_append, Parameters.named_concat]
  rfl

/-- A visit takes out what extraction takes out. -/
theorem Extraction.run_visit_const (c : Const) (taken : Parameters) :
    (visit (.const c)).run (having taken) =
      (((Expr.const c).extract taken.length).1,
        having (taken ++ ((Expr.const c).extract taken.length).2)) := by
  rw [visit, Expr.extract]
  cases c.isBool with
  | true =>
      rw [if_pos rfl, if_pos rfl, List.append_nil]
      rfl
  | false =>
      rw [if_neg Bool.false_ne_true, if_neg Bool.false_ne_true, having_concat]
      rfl

namespace Expr

theorem run_rewriteList_visit {es : List Expr}
    (ih : ∀ e ∈ es, ∀ taken : Parameters, (e.rewrite Extraction.visit).run (.having taken) =
      ((e.extract taken.length).1, .having (taken ++ (e.extract taken.length).2)))
    (taken : Parameters) :
    (rewriteList Extraction.visit es).run (.having taken) =
      ((extractList taken.length es).1, .having (taken ++ (extractList taken.length es).2)) := by
  induction es generalizing taken with
  | nil =>
      rw [rewriteList, extractList, List.append_nil]
      rfl
  | cons e es ihes =>
      obtain ⟨he, hes⟩ := List.forall_mem_cons.mp ih
      rw [rewriteList, run_bind_of_run (he taken), run_bind_of_run (ihes hes _), extractList,
        List.length_append, List.append_assoc]
      rfl

/-- Rewriting takes out the constants of the tree, and goes on counting where
it was. -/
theorem run_rewrite_visit (e : Expr) (taken : Parameters) :
    (e.rewrite Extraction.visit).run (.having taken) =
      ((e.extract taken.length).1, .having (taken ++ (e.extract taken.length).2)) := by
  induction e generalizing taken with
  | const c => exact Extraction.run_visit_const c taken
  | group e ih =>
      rw [rewrite, run_bind_of_run (ih taken)]
      rfl
  | binary op left right ihl ihr =>
      rw [rewrite, run_bind_of_run (ihl taken), run_bind_of_run (ihr _), List.length_append,
        List.append_assoc]
      rfl
  | unary op args ih =>
      rw [rewrite, run_bind_of_run (run_rewriteList_visit ih taken)]
      rfl
  | call name args ih =>
      rw [rewrite, run_bind_of_run (run_rewriteList_visit ih taken)]
      rfl
  | array items ih =>
      rw [rewrite, run_bind_of_run (run_rewriteList_visit ih taken)]
      rfl
  | _ =>
      rw [extract, List.append_nil]
      rfl

end Expr

/-- What a pass makes of one tree, without a state. -/
def Pass.mapped : Pass → Expr → Mapped Expr
  | .fieldNames namer, e => e.nameFields namer
  | .dialect, e => e.toDialect
  | .parameters, e => ⟨(e.extract 0).1, []⟩

namespace Session

/-! ## Requests and replies -/

inductive Request where
  | apply (e : Expr)
  | takeErrors

inductive Reply where
  | tree (e : Expr)
  | errors (xs : List SoftError)

def answer (s : Session) : Request → Reply × Session
  | .apply e => (.tree (s.apply e).1, (s.apply e).2)
  | .takeErrors => (.errors s.takeErrors.1, s.takeErrors.2)

/-- The session after some requests. -/
def after (s : Session) : List Request → Session
  | [] => s
  | q :: qs => (s.answer q).2.after qs

def replies (s : Session) : List Request → List Reply
  | [] => []
  | q :: qs => (s.answer q).1 :: (s.answer q).2.replies qs

theorem replies_getElem? (s : Session) (past : List Request) (q : Request) (later : List Request) :
    (s.replies (past ++ q :: later))[past.length]? = some ((s.after past).answer q).1 := by
  induction past generalizing s with
  | nil => rfl
  | cons p past ih => exact ih _

/-! ## What requests leave behind -/

/-- All trees sent. -/
def trees (past : List Request) : List Expr :=
  past.filterMap fun
    | .apply e => some e
    | .takeErrors => none

/-- The trees sent since the errors were last taken. -/
def pending (past : List Request) : List Expr :=
  past.foldl (fun es q =>
    match q with
    | .apply e => es ++ [e]
    | .takeErrors => []) []

theorem pending_concat_apply (past : List Request) (e : Expr) :
    pending (past ++ [.apply e]) = pending past ++ [e] := by
  rw [pending, List.foldl_concat]
  rfl

theorem pending_concat_takeErrors (past : List Request) :
    pending (past ++ [.takeErrors]) = [] := by
  rw [pending, List.foldl_concat]

theorem trees_concat_apply (past : List Request) (e : Expr) :
    trees (past ++ [.apply e]) = trees past ++ [e] :=
  List.filterMap_append

theorem trees_concat_takeErrors (past : List Request) :
    trees (past ++ [.takeErrors]) = trees past :=
  List.filterMap_append.trans (List.append_nil _)

/-- The errors of one tree by itself. -/
def freshErrors (pass : Pass) (e : Expr) : List SoftError :=
  ((start pass).apply e).2.takeErrors.1

/-- A session that has these errors to hand over, or has taken these
constants out. -/
def having (errors : List SoftError) (taken : Parameters) : Pass → Session
  | .fieldNames namer => .fieldNames namer errors
  | .dialect => .dialect errors
  | .parameters => .parameters (.having taken)

/-- The session after some requests, if its pass leaks nothing. -/
def reached (pass : Pass) (past : List Request) : Session :=
  having ((pending past).flatMap (freshErrors pass)) (Expr.listSlots (trees past)) pass

theorem reached_nil (pass : Pass) : reached pass [] = start pass := by
  cases pass <;> rfl

section Apply

variable (errors : List SoftError) (taken : Parameters) (e : Expr)

theorem apply_having {pass : Pass} (hpass : pass.takesParameters = false) :
    (having errors taken pass).apply e =
      ((pass.mapped e).result, having (errors ++ (pass.mapped e).errors) taken pass) := by
  cases pass with
  | fieldNames namer =>
      simp only [having, apply, Expr.run_rewrite_recording]
      rfl
  | dialect =>
      simp only [having, apply, Expr.run_rewrite_recording]
      rfl
  | parameters => cases hpass

theorem apply_having_parameters : (having errors taken .parameters).apply e =
    (e.fill (holes taken.length e.slots), having errors (taken ++ e.slots) .parameters) := by
  have hextract := e.extract_eq taken.length []
  rw [List.append_nil] at hextract
  simp only [having, apply, Expr.run_rewrite_visit, hextract]

/-- A fresh session makes of a tree what the pass makes of it. -/
theorem apply_start {pass : Pass} (hpass : pass.takesParameters = false) :
    ((start pass).apply e).1 = (pass.mapped e).result ∧
      freshErrors pass e = (pass.mapped e).errors := by
  have happly := apply_having [] [] e hpass
  have hstart : having [] [] pass = start pass := by cases pass <;> rfl
  rw [hstart] at happly
  rw [freshErrors, happly]
  cases pass with
  | parameters => cases hpass
  | fieldNames | dialect => exact ⟨rfl, rfl⟩

end Apply

/-- A request takes the session to where it should be. -/
theorem answer_reached (pass : Pass) (past : List Request) (q : Request) :
    ((reached pass past).answer q).2 = reached pass (past ++ [q]) := by
  cases q with
  | takeErrors =>
      rw [reached, reached, pending_concat_takeErrors, trees_concat_takeErrors]
      cases pass <;> rfl
  | apply e =>
      rw [reached, reached, pending_concat_apply, trees_concat_apply, List.flatMap_append,
        List.flatMap_singleton, Expr.listSlots_concat, answer]
      cases pass with
      | parameters => rw [apply_having_parameters]; rfl
      | fieldNames namer => rw [apply_having _ _ _ rfl, (apply_start e rfl).2]; rfl
      | dialect => rw [apply_having _ _ _ rfl, (apply_start e rfl).2]; rfl

theorem after_reached (pass : Pass) (past qs : List Request) :
    (reached pass past).after qs = reached pass (past ++ qs) := by
  induction qs generalizing past with
  | nil => rw [List.append_nil]; rfl
  | cons q qs ih => rw [after, answer_reached, ih, List.append_assoc]; rfl

theorem after_start (pass : Pass) (past : List Request) :
    (start pass).after past = reached pass past := by
  rw [← reached_nil, after_reached]
  rfl

/-! ## The headline theorem -/

/-- **Trees do not leak into each other.** Of the passes that record errors,
every tree is what a fresh session makes of it, and the errors handed over
are those of the trees since they were last taken, each as a fresh session
has them; a fresh session has what the pass has without a state. The pass
that takes constants out has no errors; it numbers the placeholders of all
trees from one on, each number is used once, and its parameters are the
constants under their numbers and nothing else. -/
theorem replies_isolated (past later : List Request) :
    (∀ pass : Pass, pass.takesParameters = false →
      (∀ e, ((start pass).replies (past ++ .apply e :: later))[past.length]? =
        some (.tree ((start pass).apply e).1)) ∧
      ((start pass).replies (past ++ .takeErrors :: later))[past.length]? =
        some (.errors ((pending past).flatMap (freshErrors pass))) ∧
      ∀ e, ((start pass).apply e).1 = (pass.mapped e).result ∧
        freshErrors pass e = (pass.mapped e).errors) ∧
    (∀ e, ((start .parameters).replies (past ++ .apply e :: later))[past.length]? =
      some (.tree (e.fill (holes (Expr.listSlots (trees past)).length e.slots)))) ∧
    ((start .parameters).replies (past ++ .takeErrors :: later))[past.length]? =
      some (.errors []) ∧
    (holes 0 (Expr.listSlots (trees past))).Nodup ∧
    ∃ ps, ((start .parameters).after past).parameters? = some ps ∧
      ∀ name c, ps.get? name = some c ↔
        ∃ i, name = "P_" ++ toString (i + 1) ∧ (Expr.listSlots (trees past))[i]? = some c := by
  refine ⟨fun pass hpass => ⟨fun e => ?_, ?_, fun e => apply_start e hpass⟩,
    fun e => ?_, ?_, ?_, ?_⟩
  · rw [replies_getElem?, after_start, answer, reached, apply_having _ _ _ hpass,
      (apply_start e hpass).1]
  · rw [replies_getElem?, after_start]
    cases pass with
    | parameters => cases hpass
    | fieldNames | dialect => rfl
  · rw [replies_getElem?, after_start, answer, reached, apply_having_parameters]
  · rw [replies_getElem?, after_start]
    rfl
  · exact holes_nodup (fun c => Expr.isBool_of_mem_listSlots) 0
  · rw [after_start]
    exact ⟨_, rfl, fun name c => Parameters.get?_named_iff⟩

/-- The error of a call that is sent twice is handed over once each time. -/
theorem replies_isolated_twice :
    ((start .dialect).replies [.apply (.call "f" []), .takeErrors, .apply (.call "f" []),
      .apply .null, .takeErrors])[4]? = some (.errors [.unknownFunction "f"]) := by
  obtain ⟨hpasses, -⟩ := replies_isolated [.apply (.call "f" []), .takeErrors,
    .apply (.call "f" []), .apply .null] []
  exact (hpasses .dialect rfl).2.1

end Session

end EventQuery
