import Flowline.Source.Lexer
import Flowline.Source.Stmt

/-!
# Parsing

Recursive descent over the tokens of a text, one token ahead.  Errors are collected with the place
of the token at which they were found; a tree is returned all the same, with `Expr.missing` where
an operand was not found.

    or     ::= and { "||" and }
    and    ::= eq { "&&" eq }
    eq     ::= unary { ("==" | "!=") unary }
    unary  ::= "!" unary | "(" type ")" unary | postfix
    type   ::= bool | (bit | int | varbit) "<" INT ">"
    postfix ::= primary { "." IDENT | "(" args ")" | "[" INT ":" INT "]" }
    args   ::= [ or { "," or } [ "," ] ]
    primary ::= INT | true | false | IDENT | "(" or ")"
    keyset ::= default | "_" | or [ "&&&" or ]
    stmt   ::= block | if "(" or ")" stmt [ else stmt ] | switch "(" or ")" "{" { case } "}"
             | exit ";" | return ";" | ";" | postfix "=" or ";" | postfix ";"
    case   ::= (IDENT | default) ":" [ block ]
    block  ::= "{" { stmt } "}"

Only a dotted path can be called.  The functions take a bound on the depth of their calls; a
constant number of calls lies between two tokens, so `depthBound` is never reached.
-/

namespace Flowline.Source

/-! ## Reading tokens -/

/-- What the parser has left to read, and the errors so far.  Behind the last token the text has
ended, and every further token is an end of input one column on. -/
structure ParseState where
  tokens : List Token
  last : Token
  errors : List Text
  deriving Repr

namespace ParseState

/-- The token to be read. -/
def current (s : ParseState) : Token := s.tokens.headD s.last

/-- The class of the token to be read. -/
def kind (s : ParseState) : TokenKind := s.current.kind

/-- The class of the token behind it. -/
def peekKind (s : ParseState) : TokenKind := (s.tokens.tail.headD s.last).kind

/-- One token further. -/
def advance (s : ParseState) : ParseState :=
  match s.tokens with
  | _ :: ts => { s with tokens := ts }
  | [] => { s with last := { s.last with column := s.last.column + 1 } }

/-- Records an error at the current token. -/
def fail (s : ParseState) (reason : Text) : ParseState :=
  { s with
    errors := s.errors ++
      ["line " ++ toString s.current.line ++ ", col " ++ toString s.current.column ++ ": " ++
        reason] }

/-- Records an error that names the current token. -/
def failGot (s : ParseState) (reason : Text) : ParseState := s.fail (reason ++ s.kind.name)

end ParseState

section

variable {α β : Type}

/-- Goes on behind a step that read something. -/
def andThen (p : Option α × ParseState) (k : α → ParseState → Option β × ParseState) :
    Option β × ParseState :=
  match p with
  | (none, s) => (none, s)
  | (some a, s) => k a s

/-- A step that always has a result. -/
def always (p : α × ParseState) : Option α × ParseState := (some p.1, p.2)

end

/-- Reads a token of the given class. -/
def take (k : TokenKind) (s : ParseState) : Option Token × ParseState :=
  if s.kind = k then (some s.current, s.advance)
  else (none, s.failGot ("expected " ++ k.name ++ ", got "))

/-! ## Pieces without nesting -/

/-- Reads a type. -/
def parseType (s : ParseState) : Option ValueType × ParseState :=
  if s.kind = .kwBool then (some .truth, s.advance)
  else andThen (take .lt s.advance) fun _ t =>
    if t.kind ≠ .int then (none, t.failGot "expected width, got ")
    else
      match Numeral.word? t.current.literal.toList with
      | none => (none, t.fail ("invalid width " ++ t.current.literal.quoted))
      | some width => andThen (take .gt t.advance) fun _ t =>
        (some { width, isSigned := s.kind = .kwInt, isVarbit := s.kind = .kwVarbit }, t)

/-- Reads a bound of a slice. -/
def parseBound (s : ParseState) : Option Int64 × ParseState :=
  if s.kind ≠ .int then (none, s.failGot "expected integer, got ")
  else
    match Literal.parse s.current.literal with
    | .ok l =>
      if Numeral.isWord l.value then (some (Int64.ofInt l.value), s.advance)
      else (none, s.fail ("invalid integer " ++ s.current.literal.quoted))
    | .error _ => (none, s.fail ("invalid integer " ++ s.current.literal.quoted))

/-- Reads the bounds of a slice behind its opening bracket. -/
def parseBounds (s : ParseState) : Option (Int64 × Int64) × ParseState :=
  andThen (parseBound s) fun high s => andThen (take .colon s) fun _ s =>
    andThen (parseBound s) fun low s => andThen (take .rbracket s) fun _ s =>
      (some (high, low), s)

/-- A dotted name as the target of a call, if it has one, and the name of what is called. -/
def splitCallee (name : Text) : Option Text × Text :=
  let cs := name.toList.reverse
  let method := String.ofList (cs.takeWhile (· ≠ '.')).reverse
  match cs.dropWhile (· ≠ '.') with
  | [] => (none, method)
  | _ :: target => (some (String.ofList target.reverse), method)

/-! ## Expressions -/

/-- The levels of binary operators, loosest first. -/
inductive Level where
  | or
  | and
  | eq
  deriving DecidableEq, Repr

/-- The operator of a level that a token denotes. -/
def Level.operator? : Level → TokenKind → Option BinaryOp
  | .or, .or => some .or
  | .and, .and => some .and
  | .eq, .eq => some .eq
  | .eq, .ne => some .ne
  | _, _ => none

/-- A member of an expression.  Members of a dotted path make it longer. -/
def Expr.select (name : Text) : Expr → Expr
  | .path p => .path (p ++ "." ++ name)
  | e => .member e name

/-- The path that an expression is; only these are called. -/
def Expr.callee? : Expr → Option Text
  | .path p => some p
  | _ => none

mutual

/-- Reads operands of a level with its operators between them, grouped to the left. -/
def parseBinary : Nat → Level → ParseState → Option Expr × ParseState
  | 0, _, s => (none, s)
  | n + 1, level, s => andThen (parseOperand n level s) (parseOperators n level)

/-- Reads further operators of a level behind a left operand. -/
def parseOperators : Nat → Level → Expr → ParseState → Option Expr × ParseState
  | 0, _, _, s => (none, s)
  | n + 1, level, left, s =>
    match level.operator? s.kind with
    | none => (some left, s)
    | some op => andThen (parseOperand n level s.advance) fun right s =>
        parseOperators n level (.binary op left right) s

/-- Reads an operand of a level: an expression of the next level. -/
def parseOperand : Nat → Level → ParseState → Option Expr × ParseState
  | 0, _, s => (none, s)
  | n + 1, .or, s => parseBinary n .and s
  | n + 1, .and, s => parseBinary n .eq s
  | n + 1, .eq, s => parseUnary n s

/-- Reads a negation, a cast or a postfix expression. -/
def parseUnary : Nat → ParseState → Option Expr × ParseState
  | 0, s => (none, s)
  | n + 1, s =>
    if s.kind = .not then
      andThen (parseUnary n s.advance) fun e s => (some (.negation e), s)
    else if s.kind = .lparen ∧ s.peekKind.beginsType then
      andThen (parseType s.advance) fun type s => andThen (take .rparen s) fun _ s =>
        andThen (parseUnary n s) fun e s => (some (.cast type e), s)
    else parsePostfix n s

/-- Reads a primary expression with members, calls and slices behind it. -/
def parsePostfix : Nat → ParseState → Option Expr × ParseState
  | 0, s => (none, s)
  | n + 1, s => andThen (parsePrimary n s) (parseSuffixes n)

/-- Reads the members, calls and slices behind an expression. -/
def parseSuffixes : Nat → Expr → ParseState → Option Expr × ParseState
  | 0, _, s => (none, s)
  | n + 1, e, s =>
    if s.kind = .dot then
      if s.advance.kind ≠ .ident then (none, s.advance.failGot "expected member name, got ")
      else parseSuffixes n (e.select s.advance.current.literal) s.advance.advance
    else if s.kind = .lparen then
      match e.callee? with
      | some p => andThen (parseArgs n s.advance) fun args s => andThen (take .rparen s) fun _ s =>
          parseSuffixes n (.call (splitCallee p).1 (splitCallee p).2 args) s
      | none => (none, s.fail ("cannot call " ++ e.text))
    else if s.kind = .lbracket then
      andThen (parseBounds s.advance) fun b s => parseSuffixes n (.slice e b.1 b.2) s
    else (some e, s)

/-- Reads arguments up to a closing parenthesis or to an argument without a comma behind it. -/
def parseArgs : Nat → ParseState → Option (List Expr) × ParseState
  | 0, s => (none, s)
  | n + 1, s =>
    if s.kind = .rparen then (some [], s)
    else andThen (parseBinary n .or s) fun e s =>
      if s.kind = .comma then andThen (parseArgs n s.advance) fun es s => (some (e :: es), s)
      else (some [e], s)

/-- Reads a literal, a name or an expression in parentheses. -/
def parsePrimary : Nat → ParseState → Option Expr × ParseState
  | 0, s => (none, s)
  | n + 1, s =>
    match s.kind with
    | .int =>
      match Literal.parse s.current.literal with
      | .ok l => (some (.literal l), s.advance)
      | .error e => (none, s.fail e.message)
    | .kwTrue => (some (.truth true), s.advance)
    | .kwFalse => (some (.truth false), s.advance)
    | .ident => (some (.path s.current.literal), s.advance)
    | .lparen => andThen (parseBinary n .or s.advance) fun e s =>
        andThen (take .rparen s) fun _ s => (some e, s)
    | _ => (none, s.failGot "expected expression, got ")

end

/-! ## Statements -/

/-- Goes on behind an expression, also if it is missing. -/
def orMissing {β : Type} (p : Option Expr × ParseState)
    (k : Expr → ParseState → Option β × ParseState) : Option β × ParseState :=
  k (p.1.getD .missing) p.2

/-- Reads an assignment or a call. -/
def parseAssignOrCall (n : Nat) (s : ParseState) : Option Stmt × ParseState :=
  andThen (parsePostfix n s) fun left s =>
    if s.kind = .assign then
      orMissing (parseBinary n .or s.advance) fun right s =>
        andThen (take .semicolon s) fun _ s => (some (.assign left right), s)
    else
      match left with
      | .call target method args =>
        andThen (take .semicolon s) fun _ s => (some (.call target method args), s)
      | left => (none, s.fail ("expected assignment or call, got " ++ left.text))

/-- Reads the condition of an `if` or the subject of a `switch`, with its parentheses.  A condition
that is not there leaves a hole. -/
def parseHead (n : Nat) (s : ParseState) : Option Expr × ParseState :=
  andThen (take .lparen s) fun _ s => orMissing (parseBinary n .or s) fun cond s =>
    andThen (take .rparen s) fun _ s => (some cond, s)

/-- Reads what is behind the first branch of an `if`, with a reader for branches. -/
def afterThen (branch : ParseState → Option Stmt × ParseState) (cond : Expr) (thn : Stmt)
    (s : ParseState) : Option Stmt × ParseState :=
  if s.kind = .kwElse then
    andThen (branch s.advance) fun els s => (some (.ifElse cond thn els), s)
  else (some (.ifThen cond thn), s)

/-- Reads what is behind the subject of a `switch`, with a reader for cases. -/
def afterSubject (cases : ParseState → Option (List Case) × ParseState) (subject : Expr)
    (s : ParseState) : Option Stmt × ParseState :=
  if s.kind ≠ .lbrace then (none, s.failGot "expected '\x7b', got ")
  else andThen (cases s.advance) fun cs s =>
    andThen (take .rbrace s) fun _ s => (some (.switch subject cs), s)

/-- Reads what is behind the label of a case, with readers for its body and for more cases. -/
def afterLabel (body : ParseState → List Stmt × ParseState)
    (cases : ParseState → Option (List Case) × ParseState) (label : Text) (s : ParseState) :
    Option (List Case) × ParseState :=
  if s.kind = .lbrace then
    andThen (always (body s)) fun ss s => andThen (cases s) fun cs s =>
      (some (.arm label ss :: cs), s)
  else andThen (cases s) fun cs s => (some (.bare label :: cs), s)

mutual

/-- Reads one statement. -/
def parseStatement : Nat → ParseState → Option Stmt × ParseState
  | 0, s => (none, s)
  | n + 1, s =>
    match s.kind with
    | .lbrace => andThen (always (parseBlock n s)) fun ss s => (some (.block ss), s)
    | .kwIf => andThen (parseHead n s.advance) fun cond s =>
        andThen (parseStatement n s) (afterThen (parseStatement n) cond)
    | .kwSwitch => andThen (parseHead n s.advance) (afterSubject (parseCases n))
    | .kwExit => andThen (take .semicolon s.advance) fun _ s => (some .exit, s)
    | .kwReturn => andThen (take .semicolon s.advance) fun _ s => (some .ret, s)
    | .semicolon => (some .empty, s.advance)
    | .ident => parseAssignOrCall n s
    | _ => (none, (s.failGot "unexpected token in statement: ").advance)

/-- Reads a block.  After an error the rest of the block is left unread. -/
def parseBlock : Nat → ParseState → List Stmt × ParseState
  | 0, s => ([], s)
  | n + 1, s =>
    match parseMany n true s.advance with
    | (stmts, true, s) => (stmts, (take .rbrace s).2)
    | (stmts, false, s) => (stmts, s)

/-- Reads statements up to the end of input, or to a closing brace if one is awaited.  The second
result tells whether it got there without an error. -/
def parseMany : Nat → Bool → ParseState → List Stmt × Bool × ParseState
  | 0, _, s => ([], false, s)
  | n + 1, closing, s =>
    if s.kind = .eof ∨ (closing ∧ s.kind = .rbrace) then ([], true, s)
    else
      match parseStatement n s with
      | (stmt, t) =>
        if s.errors.length < t.errors.length then (stmt.toList, false, t)
        else
          match parseMany n closing t with
          | (stmts, ok, t) => (stmt.toList ++ stmts, ok, t)

/-- Reads the cases of a switch up to its closing brace.  An error inside a body does not end the
switch. -/
def parseCases : Nat → ParseState → Option (List Case) × ParseState
  | 0, s => (none, s)
  | n + 1, s =>
    if s.kind = .eof ∨ s.kind = .rbrace then (some [], s)
    else if s.kind = .ident ∨ s.kind = .kwDefault then
      andThen (take .colon s.advance) fun _ t => afterLabel (parseBlock n) (parseCases n)
        (if s.kind = .ident then s.current.literal else "default") t
    else (none, s.failGot "expected switch label, got ")

end

/-! ## Whole texts -/

/-- A tree read from a text, with the errors found on the way. -/
structure Parsed (α : Type) where
  tree : α
  errors : List Text
  deriving Repr

/-- A bound on the depth of calls: fewer than sixteen lie between two tokens. -/
def depthBound (tokens : List Token) : Nat := 16 * (tokens.length + 2)

/-- Parses the whole of a text.  The parser looks one token ahead, so it has met the fault in the
text if it stopped with fewer than two tokens to go. -/
def parseText {α : Type} (parse : Nat → ParseState → α × ParseState) (input : Text) :
    Except Fault (Parsed α) :=
  let sc := scan input
  let (tree, s) := parse (depthBound sc.tokens) ⟨sc.tokens, sc.last, []⟩
  match sc.fault with
  | some f => if s.tokens.length < 2 then .error f else .ok ⟨tree, s.errors⟩
  | none => .ok ⟨tree, s.errors⟩

/-- Records an error if there are tokens left. -/
def expectEnd (what : Text) (s : ParseState) : ParseState :=
  if s.kind = .eof then s else s.fail ("unexpected " ++ s.kind.name ++ " after " ++ what)

/-- Reads a list of statements. -/
def statements (n : Nat) (s : ParseState) : List Stmt × ParseState :=
  match parseMany n false s with
  | (stmts, _, s) => (stmts, s)

/-- Reads an expression with nothing behind it. -/
def expression (n : Nat) (s : ParseState) : Option Expr × ParseState :=
  match parseBinary n .or s with
  | (e, s) => (e, expectEnd "expression" s)

/-- Reads one key of an entry. -/
def keysetBody (n : Nat) (s : ParseState) : Option Expr × ParseState :=
  if s.kind = .kwDefault ∨ (s.kind = .ident ∧ s.current.literal = "_") then (some .any, s.advance)
  else
    match parseBinary n .or s with
    | (e, s) =>
      if s.kind = .mask then
        match parseBinary n .or s.advance with
        | (m, s) => (some (.binary .mask (e.getD .missing) (m.getD .missing)), s)
      else (e, s)

/-- Reads one key of an entry with nothing behind it. -/
def keyset (n : Nat) (s : ParseState) : Option Expr × ParseState :=
  match keysetBody n s with
  | (e, s) => (e, expectEnd "keyset" s)

/-- Parses a text as a list of statements. -/
def parseStatements (input : Text) : Except Fault (Parsed (List Stmt)) := parseText statements input

/-- Parses a text as an expression. -/
def parseExpression (input : Text) : Except Fault (Parsed (Option Expr)) := parseText expression input

/-- Parses a text as a key of a constant entry: a value, a value and its mask, or a wildcard. -/
def parseKeyset (input : Text) : Except Fault (Parsed (Option Expr)) := parseText keyset input

end Flowline.Source
