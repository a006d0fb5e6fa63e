import EventQuery.Proofs.DialectMaps
import EventQuery.Proofs.SoftErrors

/-!
# The order of the passes

A clause is made by giving the fields their columns and then turning the
operators into those of SQL. The two passes can change places
(`nameFields_toDialect_comm`): a field becomes a symbol or a fault, and a
step of the dialect takes neither for a null, a string or a list, while the
dialect makes up no field and leaves every field as it is.

What the other order changes is how often a field is asked for. An operand
that the dialect drops is never named, and one that it writes twice is named
twice, so the errors about fields can differ. They do not if every field has
a column.
-/

namespace EventQuery

namespace Expr

section

variable (namer : Namer)

/-- The tree in columns. -/
def inColumns (e : Expr) : Expr := (e.nameFields namer).result

theorem inColumns_list (es : List Expr) :
    (bottomUpList (nameFieldStep namer) es).result = es.map (inColumns namer) :=
  bottomUpList_result _ es

theorem inColumns_symbol (name : String) : inColumns namer (.symbol name) =
    match namer name with
    | .ok column => .symbol column
    | .error e => .fault e.message := by
  unfold inColumns nameFields
  rw [bottomUp, Mapped.finish, nameFieldStep]
  cases namer name <;> rfl

theorem inColumns_keepsKinds : KeepsKinds (inColumns namer) where
  binary _ _ _ := rfl
  unary op args := congrArg (Expr.unary op) (inColumns_list namer args)
  call name args := congrArg (Expr.call name) (inColumns_list namer args)
  array items := congrArg Expr.array (inColumns_list namer items)
  const _ := rfl
  kind e := by
    cases e with
    | const c => cases c <;> rfl
    | symbol name =>
        rw [inColumns_symbol]
        cases namer name <;> rfl
    | _ => rfl

/-- The dialect over the tree in columns is the tree of the dialect in
columns. -/
theorem toDialect_inColumns (e : Expr) :
    (inColumns namer e).toDialect = e.toDialect.under (inColumns namer) := by
  refine toDialect_map (inColumns_keepsKinds namer) (fun _ => rfl) (fun _ => rfl) (fun name => ?_) e
  rw [inColumns_symbol]
  cases namer name <;> rfl

/-- Naming the fields of a tree reports nothing if each has a column. -/
theorem nameFields_errors_eq_nil {e : Expr}
    (h : ∀ name ∈ e.symbols, ∃ column, namer name = .ok column) :
    (e.nameFields namer).errors = [] := by
  rw [nameFields_errors, List.filterMap_eq_nil_iff]
  intro name hname
  obtain ⟨column, hcolumn⟩ := h name hname
  rw [Namer.error?, hcolumn]

end

end Expr

/-- **The passes commute.** Whatever the tree and the namer, naming the
fields and turning the operators into those of SQL lead to the same tree in
either order, and the dialect reports the same errors. If every field of the
tree has a column, all errors are the same. -/
theorem nameFields_toDialect_comm (namer : Namer) (e : Expr) :
    (e.nameFields namer).result.toDialect.result = (e.toDialect.result.nameFields namer).result ∧
      (e.nameFields namer).result.toDialect.errors = e.toDialect.errors ∧
      ((∀ name ∈ e.symbols, ∃ column, namer name = .ok column) →
        (e.nameFields namer).errors ++ (e.nameFields namer).result.toDialect.errors =
          e.toDialect.errors ++ (e.toDialect.result.nameFields namer).errors) := by
  have hcomm := e.toDialect_inColumns namer
  have hresult := congrArg Mapped.result hcomm
  have herrors := congrArg Mapped.errors hcomm
  refine ⟨hresult, herrors, fun hnames => ?_⟩
  have hbefore := Expr.nameFields_errors_eq_nil namer hnames
  have hafter := Expr.nameFields_errors_eq_nil namer (e := e.toDialect.result)
    fun name hname => hnames name (e.toDialect_symbols hname)
  rw [hbefore, hafter, List.nil_append, List.append_nil]
  exact herrors

/-- An address that is written twice, a list of patterns, and a call that is
dropped with the field in it. -/
theorem nameFields_toDialect_comm_columns :
    let e : Expr := .binary "or"
      (.binary "and" (.call "cidrMatch" [.symbol "a.b", .string "x", .string "y"])
        (.binary "not like" (.symbol "c") (.array [.string "p%", .null])))
      (.call "length" [.symbol "d", .null])
    e.symbols = ["a.b", "c", "d"] ∧ e.toDialect.result.symbols = ["a.b", "a.b", "c", "c"] ∧
      (∀ name ∈ e.symbols, ∃ column, Namer.columnPath name = .ok column) ∧
      (e.nameFields .columnPath).errors ++ (e.nameFields .columnPath).result.toDialect.errors =
        e.toDialect.errors ++ (e.toDialect.result.nameFields .columnPath).errors := by
  refine ⟨rfl, rfl, fun name _ => ⟨_, rfl⟩, ?_⟩
  exact (nameFields_toDialect_comm .columnPath _).2.2 fun name _ => ⟨_, rfl⟩

end EventQuery
