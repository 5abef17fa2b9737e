/-
# `Tree.Kind` — what a node of the syntax tree is

The grammar has several hundred node kinds; the analyses tell apart some
forty of them.  Those have a constructor each.  Comments, which every walk
has to step over, are the kinds whose name holds the word `comment`; all
remaining kinds are carried by name, for error messages.

`Kind.ofName` reads a grammar's name and `Kind.name` writes it back; nothing
is lost on the way (`Kind.name_ofName`).
-/
import DefUse.Text.Affix

namespace DefUse.Tree

/-- The kind of a syntax node. -/
inductive Kind where
  /-- A variable occurrence. -/
  | identifier
  /-- A variable occurrence that is at once a property name, as in `{a}`. -/
  | shorthandIdentifier
  | lexicalDeclaration
  | variableDeclaration
  | variableDeclarator
  | expressionStatement
  | emptyStatement
  | statementBlock
  | hashBangLine
  | ifStatement
  | elseClause
  | whileStatement
  | doStatement
  | forStatement
  | forInStatement
  | breakStatement
  | continueStatement
  | returnStatement
  | switchStatement
  | tryStatement
  | throwStatement
  | labeledStatement
  | functionDeclaration
  | generatorDeclaration
  | sequenceExpression
  | assignmentExpression
  | augmentedAssignment
  | updateExpression
  | parenthesizedExpression
  | memberExpression
  | functionExpression
  | functionKeyword
  | arrowFunction
  | generatorFunction
  | classExpression
  | trueLiteral
  | requiredParameter
  | optionalParameter
  | assignmentPattern
  /-- Any kind whose name holds the word `comment`. -/
  | comment (name : String)
  /-- Any other kind. -/
  | other (name : String)
deriving DecidableEq, Inhabited

namespace Kind

/-- The grammar's name of a kind. -/
def name : Kind → String
  | identifier => "identifier"
  | shorthandIdentifier => "shorthand_property_identifier"
  | lexicalDeclaration => "lexical_declaration"
  | variableDeclaration => "variable_declaration"
  | variableDeclarator => "variable_declarator"
  | expressionStatement => "expression_statement"
  | emptyStatement => "empty_statement"
  | statementBlock => "statement_block"
  | hashBangLine => "hash_bang_line"
  | ifStatement => "if_statement"
  | elseClause => "else_clause"
  | whileStatement => "while_statement"
  | doStatement => "do_statement"
  | forStatement => "for_statement"
  | forInStatement => "for_in_statement"
  | breakStatement => "break_statement"
  | continueStatement => "continue_statement"
  | returnStatement => "return_statement"
  | switchStatement => "switch_statement"
  | tryStatement => "try_statement"
  | throwStatement => "throw_statement"
  | labeledStatement => "labeled_statement"
  | functionDeclaration => "function_declaration"
  | generatorDeclaration => "generator_function_declaration"
  | sequenceExpression => "sequence_expression"
  | assignmentExpression => "assignment_expression"
  | augmentedAssignment => "augmented_assignment_expression"
  | updateExpression => "update_expression"
  | parenthesizedExpression => "parenthesized_expression"
  | memberExpression => "member_expression"
  | functionExpression => "function_expression"
  | functionKeyword => "function"
  | arrowFunction => "arrow_function"
  | generatorFunction => "generator_function"
  | classExpression => "class"
  | trueLiteral => "true"
  | requiredParameter => "required_parameter"
  | optionalParameter => "optional_parameter"
  | assignmentPattern => "assignment_pattern"
  | comment name => name
  | other name => name

/-- The kind with a given name. -/
def ofName : String → Kind
  | "identifier" => identifier
  | "shorthand_property_identifier" => shorthandIdentifier
  | "lexical_declaration" => lexicalDeclaration
  | "variable_declaration" => variableDeclaration
  | "variable_declarator" => variableDeclarator
  | "expression_statement" => expressionStatement
  | "empty_statement" => emptyStatement
  | "statement_block" => statementBlock
  | "hash_bang_line" => hashBangLine
  | "if_statement" => ifStatement
  | "else_clause" => elseClause
  | "while_statement" => whileStatement
  | "do_statement" => doStatement
  | "for_statement" => forStatement
  | "for_in_statement" => forInStatement
  | "break_statement" => breakStatement
  | "continue_statement" => continueStatement
  | "return_statement" => returnStatement
  | "switch_statement" => switchStatement
  | "try_statement" => tryStatement
  | "throw_statement" => throwStatement
  | "labeled_statement" => labeledStatement
  | "function_declaration" => functionDeclaration
  | "generator_function_declaration" => generatorDeclaration
  | "sequence_expression" => sequenceExpression
  | "assignment_expression" => assignmentExpression
  | "augmented_assignment_expression" => augmentedAssignment
  | "update_expression" => updateExpression
  | "parenthesized_expression" => parenthesizedExpression
  | "member_expression" => memberExpression
  | "function_expression" => functionExpression
  | "function" => functionKeyword
  | "arrow_function" => arrowFunction
  | "generator_function" => generatorFunction
  | "class" => classExpression
  | "true" => trueLiteral
  | "required_parameter" => requiredParameter
  | "optional_parameter" => optionalParameter
  | "assignment_pattern" => assignmentPattern
  | word => if Text.holds "comment" word then comment word else other word

/-- Reading a name keeps it. -/
theorem name_ofName (word : String) : (ofName word).name = word := by
  unfold ofName
  split
  case h_40 => split <;> rfl
  all_goals rfl

/-- Is it a kind of comment? -/
def isComment : Kind → Bool
  | comment _ => true
  | _ => false

/-- Is it a destructuring pattern? -/
def isPattern (kind : Kind) : Bool :=
  Text.endsIn "_pattern" kind.name

/-- Does the grammar count it among statements and declarations? -/
def isStatement (kind : Kind) : Bool :=
  Text.endsIn "_statement" kind.name || Text.endsIn "_declaration" kind.name

end Kind

/-- The role of a node below its parent. -/
inductive Field where
  | condition
  | consequence
  | alternative
  | body
  | initializer
  | increment
  | label
  | name
  | value
  | left
  | right
  | argument
  | object
  | parameters
  | pattern
deriving DecidableEq, Inhabited

namespace Field

/-- The role with a given name, if the analyses look at it. -/
def ofName? : String → Option Field
  | "condition" => some condition
  | "consequence" => some consequence
  | "alternative" => some alternative
  | "body" => some body
  | "initializer" => some initializer
  | "increment" => some increment
  | "label" => some label
  | "name" => some name
  | "value" => some value
  | "left" => some left
  | "right" => some right
  | "argument" => some argument
  | "object" => some object
  | "parameters" => some parameters
  | "pattern" => some pattern
  | _ => none

end Field

end DefUse.Tree
