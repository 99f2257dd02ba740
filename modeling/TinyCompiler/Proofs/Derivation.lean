import TinyCompiler.Parsing.Statement
import TinyCompiler.Proofs.Numeral

/-! Derivations in the grammar of programs. A derivation is a tree whose leaves are tokens, and
keeps what the syntax tree drops: parentheses, plus signs, semicolons. Beside it stand what it
says of its tokens: the tree they make, the names they use and bind, the numerals among them,
how deep each primary and each block is nested, and whether the derivation is the greedy one. -/
namespace TinyCompiler.Grammar

abbrev TokenOf (k : Kind) := { t : Token // t.kind = k }

/-- The tiers of binary operators, loosest first. -/
inductive Tier where
  | disjunction | conjunction | comparison | additive | multiplicative
  deriving DecidableEq

inductive Level where
  | tier (t : Tier) | unary | primary

namespace Tier

def operand : Tier → Level
  | disjunction => .tier conjunction
  | conjunction => .tier comparison
  | comparison => .tier additive
  | additive => .tier multiplicative
  | multiplicative => .unary

/-- The operators of a tier, each with the node it makes of its operands. -/
def node? : Tier → Kind → Option (Expr → Expr → Expr)
  | disjunction, .pipePipe => some (.connective .or)
  | conjunction, .ampAmp => some (.connective .and)
  | comparison, .equal => some (.comparison .eq)
  | comparison, .notEqual => some (.comparison .ne)
  | comparison, .less => some (.comparison .lt)
  | comparison, .greater => some (.comparison .gt)
  | comparison, .lessEqual => some (.comparison .le)
  | comparison, .greaterEqual => some (.comparison .ge)
  | additive, .plus => some (.binary .add)
  | additive, .minus => some (.binary .sub)
  | additive, .pipe => some (.binary .or)
  | additive, .caret => some (.binary .xor)
  | multiplicative, .star => some (.binary .mul)
  | multiplicative, .slash => some (.binary .div)
  | multiplicative, .percent => some (.binary .rem)
  | multiplicative, .shiftLeft => some (.binary .shl)
  | multiplicative, .shiftRight => some (.binary .shr)
  | multiplicative, .amp => some (.binary .and)
  | multiplicative, .ampCaret => some (.binary .andNot)
  | _, _ => none

end Tier

def signKind : UnaryOp → Kind
  | .neg => .minus
  | .not => .bang

mutual

/-- Derivations from the rules for expressions. -/
inductive Phrase : Level → Type where
  | numeral (t : TokenOf .integer) : Phrase .primary
  | yes (t : TokenOf .trueWord) : Phrase .primary
  | no (t : TokenOf .falseWord) : Phrase .primary
  | name (t : TokenOf .identifier) : Phrase .primary
  | group (opening : TokenOf .openParen) (inner : Phrase (.tier .disjunction))
      (closing : TokenOf .closeParen) : Phrase .primary
  | bare (operand : Phrase .primary) : Phrase .unary
  | sign (op : UnaryOp) (t : TokenOf (signKind op)) (operand : Phrase .unary) : Phrase .unary
  | plus (t : TokenOf .plus) (operand : Phrase .unary) : Phrase .unary
  | chain {t : Tier} (first : Phrase t.operand) (links : Links t) : Phrase (.tier t)

/-- The operators of a chain, each with its right operand. -/
inductive Links : Tier → Type where
  | nil {t : Tier} : Links t
  | cons {t : Tier} (op : Token) (node : Expr → Expr → Expr) (h : t.node? op.kind = some node)
      (right : Phrase t.operand) (rest : Links t) : Links t

end

abbrev Expression := Phrase (.tier .disjunction)

mutual

/-- Derivations of statements, without the semicolon behind them. -/
inductive Sentence where
  | expr (value : Expression)
  | declare (target : TokenOf .identifier) (mark : TokenOf .colonEqual) (value : Expression)
  | assign (target : TokenOf .identifier) (mark : TokenOf .assign) (value : Expression)
  | ret (word : TokenOf .returnWord) (value : Expression)
  | ifThen (word : TokenOf .ifWord) (condition : Expression) (consequent : Block)
  | ifElse (word : TokenOf .ifWord) (condition : Expression) (consequent : Block)
      (elseWord : TokenOf .elseWord) (alternate : Block)
  | loop (word : TokenOf .forWord) (condition : Expression) (body : Block)

inductive Block where
  | braces (opening : TokenOf .openBrace) (body : Text) (closing : TokenOf .closeBrace)

inductive Text where
  | nil
  | cons (s : Sentence) (semicolon : Option (TokenOf .semicolon)) (rest : Text)

end

mutual

def Phrase.tokens : {l : Level} → Phrase l → List Token
  | _, .numeral t => [t.1]
  | _, .yes t => [t.1]
  | _, .no t => [t.1]
  | _, .name t => [t.1]
  | _, .group opening inner closing => opening.1 :: (inner.tokens ++ [closing.1])
  | _, .bare operand => operand.tokens
  | _, .sign _ t operand => t.1 :: operand.tokens
  | _, .plus t operand => t.1 :: operand.tokens
  | _, .chain first links => first.tokens ++ links.tokens

def Links.tokens : {t : Tier} → Links t → List Token
  | _, .nil => []
  | _, .cons op _ _ right rest => op :: (right.tokens ++ rest.tokens)

end

mutual

def Sentence.tokens : Sentence → List Token
  | .expr value => value.tokens
  | .declare target mark value => target.1 :: mark.1 :: value.tokens
  | .assign target mark value => target.1 :: mark.1 :: value.tokens
  | .ret word value => word.1 :: value.tokens
  | .ifThen word condition consequent => word.1 :: (condition.tokens ++ consequent.tokens)
  | .ifElse word condition consequent elseWord alternate =>
    word.1 :: (condition.tokens ++ (consequent.tokens ++ elseWord.1 :: alternate.tokens))
  | .loop word condition body => word.1 :: (condition.tokens ++ body.tokens)

def Block.tokens : Block → List Token
  | .braces opening body closing => opening.1 :: (body.tokens ++ [closing.1])

def Text.tokens : Text → List Token
  | .nil => []
  | .cons s semicolon rest => s.tokens ++ ((semicolon.map Subtype.val).toList ++ rest.tokens)

end

/-- The kind of the first token, if there is one, and otherwise of what follows. -/
def firstKind (tokens : List Token) (next : Kind) : Kind :=
  (tokens.head?.map Token.kind).getD next

mutual

/-- A chain takes every operator of its tier that follows. What follows is given by the kind of the
next token. -/
def Phrase.Greedy : {l : Level} → Phrase l → Kind → Prop
  | _, .numeral _, _ | _, .yes _, _ | _, .no _, _ | _, .name _, _ => True
  | _, .group _ inner _, _ => inner.Greedy .closeParen
  | _, .bare operand, next => operand.Greedy next
  | _, .sign _ _ operand, next => operand.Greedy next
  | _, .plus _ operand, next => operand.Greedy next
  | _, .chain first links, next => first.Greedy (firstKind links.tokens next) ∧ links.Greedy next

def Links.Greedy : {t : Tier} → Links t → Kind → Prop
  | t, .nil, next => t.node? next = none
  | _, .cons _ _ _ right rest, next =>
    right.Greedy (firstKind rest.tokens next) ∧ rest.Greedy next

end

def StartsBinding : List Kind → Prop
  | .identifier :: .colonEqual :: _ | .identifier :: .assign :: _ => True
  | _ => False

mutual

/-- A statement takes a semicolon that follows, and an `if` an `else`; a name before `:=` or `=`
begins a declaration or an assignment. -/
def Sentence.Greedy : Sentence → Kind → Prop
  | .expr value, next => value.Greedy next ∧ ¬StartsBinding (value.tokens.map Token.kind ++ [next])
  | .declare _ _ value, next => value.Greedy next
  | .assign _ _ value, next => value.Greedy next
  | .ret _ value, next => value.Greedy next
  | .ifThen _ condition consequent, next =>
    condition.Greedy .openBrace ∧ consequent.Greedy ∧ next ≠ .elseWord
  | .ifElse _ condition consequent _ alternate, _ =>
    condition.Greedy .openBrace ∧ consequent.Greedy ∧ alternate.Greedy
  | .loop _ condition body, _ => condition.Greedy .openBrace ∧ body.Greedy

def Block.Greedy : Block → Prop
  | .braces _ body _ => body.Greedy .closeBrace

def Text.Greedy : Text → Kind → Prop
  | .nil, _ => True
  | .cons s none rest, next =>
    s.Greedy (firstKind rest.tokens next) ∧ firstKind rest.tokens next ≠ .semicolon ∧
      rest.Greedy next
  | .cons s (some _) rest, next => s.Greedy .semicolon ∧ rest.Greedy next

end

mutual

/-- A primary needs a level for every block, expression and sign around it and for every operator
before it in the chains around it. -/
def Phrase.needs : {l : Level} → Phrase l → Nat → List Nat
  | _, .numeral _, around | _, .yes _, around | _, .no _, around | _, .name _, around => [around]
  | _, .group _ inner _, around => around :: inner.needs (around + 1)
  | _, .bare operand, around => operand.needs around
  | _, .sign _ _ operand, around => operand.needs (around + 1)
  | _, .plus _ operand, around => operand.needs (around + 1)
  | _, .chain first links, around => first.needs around ++ links.needs around

def Links.needs : {t : Tier} → Links t → Nat → List Nat
  | _, .nil, _ => []
  | _, .cons _ _ _ right rest, around => right.needs (around + 1) ++ rest.needs (around + 1)

end

mutual

/-- A block needs a level for itself and for every block around it. -/
def Sentence.needs : Sentence → Nat → List Nat
  | .expr value, blocks => value.needs (blocks + 1)
  | .declare _ _ value, blocks => value.needs (blocks + 1)
  | .assign _ _ value, blocks => value.needs (blocks + 1)
  | .ret _ value, blocks => value.needs (blocks + 1)
  | .ifThen _ condition consequent, blocks =>
    condition.needs (blocks + 1) ++ consequent.needs blocks
  | .ifElse _ condition consequent _ alternate, blocks =>
    condition.needs (blocks + 1) ++ (consequent.needs blocks ++ alternate.needs blocks)
  | .loop _ condition body, blocks => condition.needs (blocks + 1) ++ body.needs blocks

def Block.needs : Block → Nat → List Nat
  | .braces _ body _, blocks => (blocks + 1) :: body.needs (blocks + 1)

def Text.needs : Text → Nat → List Nat
  | .nil, _ => []
  | .cons s _ rest, blocks => s.needs blocks ++ rest.needs blocks

end

mutual

def Phrase.numerals : {l : Level} → Phrase l → List String
  | _, .numeral t => [t.1.lexeme]
  | _, .yes _ | _, .no _ | _, .name _ => []
  | _, .group _ inner _ => inner.numerals
  | _, .bare operand => operand.numerals
  | _, .sign _ _ operand => operand.numerals
  | _, .plus _ operand => operand.numerals
  | _, .chain first links => first.numerals ++ links.numerals

def Links.numerals : {t : Tier} → Links t → List String
  | _, .nil => []
  | _, .cons _ _ _ right rest => right.numerals ++ rest.numerals

end

mutual

def Sentence.numerals : Sentence → List String
  | .expr value => value.numerals
  | .declare _ _ value => value.numerals
  | .assign _ _ value => value.numerals
  | .ret _ value => value.numerals
  | .ifThen _ condition consequent => condition.numerals ++ consequent.numerals
  | .ifElse _ condition consequent _ alternate =>
    condition.numerals ++ (consequent.numerals ++ alternate.numerals)
  | .loop _ condition body => condition.numerals ++ body.numerals

def Block.numerals : Block → List String
  | .braces _ body _ => body.numerals

def Text.numerals : Text → List String
  | .nil => []
  | .cons s _ rest => s.numerals ++ rest.numerals

end

inductive Mention where
  | use (name : String)
  | bind (name : String)

namespace Mention

def bound (mentions : List Mention) : List String :=
  mentions.filterMap fun
    | use _ => none
    | bind name => some name

/-- Every name used has been bound before. -/
def Declared (mentions : List Mention) : Prop :=
  ∀ before name after, mentions = before ++ use name :: after → bind name ∈ before

end Mention

mutual

def Phrase.names : {l : Level} → Phrase l → List String
  | _, .name t => [t.1.lexeme]
  | _, .numeral _ | _, .yes _ | _, .no _ => []
  | _, .group _ inner _ => inner.names
  | _, .bare operand => operand.names
  | _, .sign _ _ operand => operand.names
  | _, .plus _ operand => operand.names
  | _, .chain first links => first.names ++ links.names

def Links.names : {t : Tier} → Links t → List String
  | _, .nil => []
  | _, .cons _ _ _ right rest => right.names ++ rest.names

end

def Phrase.uses {l : Level} (P : Phrase l) : List Mention := P.names.map .use

mutual

/-- Declarations and assignments bind their name when their value has been read; an assignment also
uses it, before its value. -/
def Sentence.mentions : Sentence → List Mention
  | .expr value => value.uses
  | .declare target _ value => value.uses ++ [.bind target.1.lexeme]
  | .assign target _ value => .use target.1.lexeme :: (value.uses ++ [.bind target.1.lexeme])
  | .ret _ value => value.uses
  | .ifThen _ condition consequent => condition.uses ++ consequent.mentions
  | .ifElse _ condition consequent _ alternate =>
    condition.uses ++ (consequent.mentions ++ alternate.mentions)
  | .loop _ condition body => condition.uses ++ body.mentions

def Block.mentions : Block → List Mention
  | .braces _ body _ => body.mentions

def Text.mentions : Text → List Mention
  | .nil => []
  | .cons s _ rest => s.mentions ++ rest.mentions

end

def latest? (name : String) : List String → Option Nat
  | [] => none
  | other :: scope =>
    match latest? name scope with
    | some i => some (i + 1)
    | none => if other = name then some 0 else none

/-- A scope lists the names bound so far, once for each binding, so that the place of a name in it
is the index of the binding. -/
def latest (scope : List String) (name : String) : Nat := (latest? name scope).getD 0

mutual

/-- Parentheses and plus signs leave no node, and a chain folds to the left. -/
def Phrase.tree (binding : String → Nat) : {l : Level} → Phrase l → Expr
  | _, .numeral t => .integer (Int64.ofInt (Decimal.value t.1.lexeme))
  | _, .yes _ => .boolean true
  | _, .no _ => .boolean false
  | _, .name t => .reference t.1.lexeme (binding t.1.lexeme)
  | _, .group _ inner _ => inner.tree binding
  | _, .bare operand => operand.tree binding
  | _, .sign op _ operand => .unary op (operand.tree binding)
  | _, .plus _ operand => operand.tree binding
  | _, .chain first links => links.fold binding (first.tree binding)

def Links.fold (binding : String → Nat) : {t : Tier} → Links t → Expr → Expr
  | _, .nil, left => left
  | _, .cons _ node _ right rest, left => rest.fold binding (node left (right.tree binding))

end

mutual

def Sentence.tree (scope : List String) : Sentence → Stmt
  | .expr value => .expr (value.tree (latest scope))
  | .declare target _ value =>
    .declare target.1.lexeme (value.tree (latest scope)) scope.length
  | .assign target _ value =>
    .assign target.1.lexeme (value.tree (latest scope)) scope.length
  | .ret _ value => .ret (value.tree (latest scope))
  | .ifThen _ condition consequent =>
    .ifThen (condition.tree (latest scope)) (consequent.trees scope)
  | .ifElse _ condition consequent _ alternate =>
    .ifElse (condition.tree (latest scope)) (consequent.trees scope)
      (alternate.trees (scope ++ Mention.bound consequent.mentions))
  | .loop _ condition body => .loop (condition.tree (latest scope)) (body.trees scope)

def Block.trees (scope : List String) : Block → List Stmt
  | .braces _ body _ => body.trees scope

def Text.trees (scope : List String) : Text → List Stmt
  | .nil => []
  | .cons s _ rest => s.tree scope :: rest.trees (scope ++ Mention.bound s.mentions)

end

end TinyCompiler.Grammar
