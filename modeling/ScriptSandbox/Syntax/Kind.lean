/-
  Kinds of syntax nodes.

  A document names the kind of a node by a tag. The kinds that numbering, scoping or labelling treat
  on their own have constructors; every other tag is carried as it is.
-/

namespace ScriptSandbox.Syntax

inductive Kind where
  | program
  | blockStatement
  | expressionStatement
  | functionDeclaration
  | functionExpression
  | arrowFunctionExpression
  | variableDeclaration
  | variableDeclarator
  | classDeclaration
  | catchClause
  | identifier
  | literal
  | thisExpression
  | binaryExpression
  | logicalExpression
  | memberExpression
  | callExpression
  | newExpression
  | arrayExpression
  | labeledStatement
  | breakStatement
  | continueStatement
  | whileStatement
  | doWhileStatement
  | forStatement
  | forInStatement
  | forOfStatement
  | switchStatement
  | other (tag : String)
deriving DecidableEq, Repr, Inhabited

namespace Kind

/-- The kind that a tag names. -/
def ofTag : String → Kind
  | "Program" => program
  | "BlockStatement" => blockStatement
  | "ExpressionStatement" => expressionStatement
  | "FunctionDeclaration" => functionDeclaration
  | "FunctionExpression" => functionExpression
  | "ArrowFunctionExpression" => arrowFunctionExpression
  | "VariableDeclaration" => variableDeclaration
  | "VariableDeclarator" => variableDeclarator
  | "ClassDeclaration" => classDeclaration
  | "CatchClause" => catchClause
  | "Identifier" => identifier
  | "Literal" => literal
  | "ThisExpression" => thisExpression
  | "BinaryExpression" => binaryExpression
  | "LogicalExpression" => logicalExpression
  | "MemberExpression" => memberExpression
  | "CallExpression" => callExpression
  | "NewExpression" => newExpression
  | "ArrayExpression" => arrayExpression
  | "LabeledStatement" => labeledStatement
  | "BreakStatement" => breakStatement
  | "ContinueStatement" => continueStatement
  | "WhileStatement" => whileStatement
  | "DoWhileStatement" => doWhileStatement
  | "ForStatement" => forStatement
  | "ForInStatement" => forInStatement
  | "ForOfStatement" => forOfStatement
  | "SwitchStatement" => switchStatement
  | tag => other tag

/-- The tag of a kind. -/
def tag : Kind → String
  | program => "Program"
  | blockStatement => "BlockStatement"
  | expressionStatement => "ExpressionStatement"
  | functionDeclaration => "FunctionDeclaration"
  | functionExpression => "FunctionExpression"
  | arrowFunctionExpression => "ArrowFunctionExpression"
  | variableDeclaration => "VariableDeclaration"
  | variableDeclarator => "VariableDeclarator"
  | classDeclaration => "ClassDeclaration"
  | catchClause => "CatchClause"
  | identifier => "Identifier"
  | literal => "Literal"
  | thisExpression => "ThisExpression"
  | binaryExpression => "BinaryExpression"
  | logicalExpression => "LogicalExpression"
  | memberExpression => "MemberExpression"
  | callExpression => "CallExpression"
  | newExpression => "NewExpression"
  | arrayExpression => "ArrayExpression"
  | labeledStatement => "LabeledStatement"
  | breakStatement => "BreakStatement"
  | continueStatement => "ContinueStatement"
  | whileStatement => "WhileStatement"
  | doWhileStatement => "DoWhileStatement"
  | forStatement => "ForStatement"
  | forInStatement => "ForInStatement"
  | forOfStatement => "ForOfStatement"
  | switchStatement => "SwitchStatement"
  | other tag => tag

/-- Function declarations, function expressions and arrows. -/
def isFunction : Kind → Bool
  | functionDeclaration | functionExpression | arrowFunctionExpression => true
  | _ => false

/-- The nodes that own a scope: programs and functions. -/
def isContext (k : Kind) : Bool := k = program || k.isFunction

/-- The nodes that open a block for class, `let` and `const` declarations and catch parameters. -/
def opensBlock : Kind → Bool
  | program | blockStatement | catchClause => true
  | forStatement | forInStatement | forOfStatement | switchStatement => true
  | _ => false

end Kind

end ScriptSandbox.Syntax
