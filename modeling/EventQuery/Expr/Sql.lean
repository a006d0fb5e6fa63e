import EventQuery.Expr.Basic

/-!
# SQL text

The text of an expression. Every operator is written in parentheses, so
the text needs no precedence. A string is written in single quotes with
backslash escapes; a fault is written as a call that fails with its
message.
-/

namespace EventQuery

namespace Sql

def escapeChar : Char → List Char
  | '\\' => ['\\', '\\']
  | '\'' => ['\\', '\'']
  | '\n' => ['\\', 'n']
  | '\t' => ['\\', 't']
  | '\r' => ['\\', 'r']
  | c => [c]

def quote (s : String) : String :=
  "'" ++ String.ofList (s.toList.flatMap escapeChar) ++ "'"

end Sql

def Const.sql : Const → String
  | string s => Sql.quote s
  | c => c.plain

namespace Expr

mutual

def sql : Expr → String
  | .const c => c.sql
  | .symbol name => name
  | .null => "NULL"
  | .group e => "(" ++ e.sql ++ ")"
  | .binary op left right => "(" ++ left.sql ++ " " ++ op ++ " " ++ right.sql ++ ")"
  | .unary op args => "(" ++ op ++ " " ++ listSql args ++ ")"
  | .call name args => name ++ "(" ++ listSql args ++ ")"
  | .array items => "(" ++ listSql items ++ ")"
  | .fault message => "throwIf(true, " ++ Sql.quote message ++ ")"

/-- Expressions separated by commas. -/
def listSql : List Expr → String
  | [] => ""
  | [e] => e.sql
  | e :: es => e.sql ++ ", " ++ listSql es

end

end Expr

end EventQuery
