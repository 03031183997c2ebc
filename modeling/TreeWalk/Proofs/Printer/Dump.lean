import TreeWalk.Proofs.Places
import TreeWalk.Proofs.Printer.Sexp
import TreeWalk.Proofs.Printer.Words

/-!
# Reading dumps back

A dump is read back as the tree it was made from, but for places: a list by its head, an atom by the
words that it is scanned as. Where all words of the tree are readable, its dump also shows where it
ends (`Sexp.Shows`).
-/

namespace TreeWalk

/-- The words that a text is scanned as. -/
def wordsOf (names : Interner) (text : String) : List TokenKind :=
  ((scan names text).tokens.map Token.kind).dropLast

/-- The constant with the given words. -/
def Literal.ofWords? : List TokenKind → Option Literal
  | [.number x] => some (.number x)
  | [.punct .minus, .number x] => some (.number x.neg)
  | [.str contents] => some (.str contents)
  | [.keyword .true_] => some (.bool true)
  | [.keyword .false_] => some (.bool false)
  | [.keyword .nil] => some .nil
  | _ => none

theorem Literal.ofWords?_tokens (value : Literal) :
    ofWords? (Layout.literal value).tokens = some value := by
  cases value with
  | number x =>
    rw [Layout.literal]
    split
    · next h =>
      have hneg : x.isNegative = true := (Bool.and_eq_true _ _ ▸ h).1
      change some (Literal.number x.abs.neg) = _
      rw [Number.abs, if_pos hneg, Number.neg_neg]
    · rfl
  | bool b => cases b <;> rfl
  | _ => rfl

/-- The name, `_` or constant with the given words. -/
def Pattern.ofWords? (ks : List TokenKind) : Option Pattern :=
  match Literal.ofWords? ks, ks with
  | some value, _ => some (.literal value default)
  | none, [.ident s] => some (.var ⟨s, default⟩)
  | none, [.punct .underscore] => some (.wild default)
  | none, _ => none

/-- The name, `this` or constant with the given words. -/
def Expr.ofWords? (ks : List TokenKind) : Option Expr :=
  match Literal.ofWords? ks, ks with
  | some value, _ => some (.literal value default)
  | none, [.ident s] => some (.var ⟨s, default⟩)
  | none, [.keyword .this] => some (.this default)
  | none, _ => none

/-- The operator that is written so, in front of its operand. -/
def UnaryOp.ofText? (text : String) : Option UnaryOp :=
  [not, neg].find? (·.text = text)

/-- The operator that is written so, between its operands. -/
def BinaryOp.ofText? (text : String) : Option BinaryOp :=
  [add, sub, mul, div, append, eq, neq, lt, gt, lte, gte, and, or].find? (·.text = text)

namespace Sexp

section

variable (names : Interner)

def readName : Sexp → Option Ident
  | .atom text => (names.get? text).map (⟨·, default⟩)
  | .list _ => none

def readNames : List Sexp → Option (List Ident)
  | [] => some []
  | x :: xs => do return (← readName names x) :: (← readNames xs)

mutual

/-- The pattern that a dump shows, without places. -/
def readPattern : Sexp → Option Pattern
  | .atom text => Pattern.ofWords? (wordsOf names text)
  | .list [] => some (.unit default)
  | .list [.atom "@", n, p] => do return .named (← readName names n) (← readPattern p)
  | .list (.atom "tuple" :: ps) => do return .tuple (← readPatterns ps) default
  | .list (.atom "vector" :: ps) => do return .vector (← readPatterns ps) default
  | .list _ => none

def readPatterns : List Sexp → Option (List Pattern)
  | [] => some []
  | p :: ps => do return (← readPattern p) :: (← readPatterns ps)

end

mutual

/-- The expression that a dump shows, without places. -/
def readExpr : Sexp → Option Expr
  | .atom text => Expr.ofWords? (wordsOf names text)
  | .list (.atom head :: items) =>
    match head, items with
    | "group", [x] => do return .grouping (← readExpr x) default
    | "=", [n, x] => do return .assign (← readName names n) (← readExpr x)
    | "call", f :: xs => do return .call (← readExpr f) (← readExprs xs) default
    | ".", [x, n] => do return .get (← readExpr x) (← readName names n)
    | ".=", [x, n, y] => do return .set (← readExpr x) (← readName names n) (← readExpr y)
    | "super", [n] => do return .super (← readName names n) default
    | "let", [n, x, y] =>
      do return .letIn (← readName names n) (← readExpr x) (← readExpr y) default
    | "do", xs => do return .seq (← readExprs xs) default
    | "if", [x, y, z] => do return .cond (← readExpr x) (← readExpr y) (← readExpr z) default
    | "tuple", xs => do return .tuple (← readExprs xs) default
    | "vector", xs => do return .vector (← readExprs xs) default
    | "case", x :: xs => do return .case (← readExpr x) (← readArms xs) default
    -- no operator has the head of another form
    | op, [x] => do return .unary (← UnaryOp.ofText? op) (← readExpr x) default
    | op, [x, y] => do return .binary (← readExpr x) (← BinaryOp.ofText? op) (← readExpr y) default
    | _, _ => none
  | .list _ => none

def readExprs : List Sexp → Option (List Expr)
  | [] => some []
  | x :: xs => do return (← readExpr x) :: (← readExprs xs)

def readArm : Sexp → Option CaseArm
  | .list [p, x] => do return .mk (← readPattern names p) none (← readExpr x)
  | .list [p, .atom "if", x, y] =>
    do return .mk (← readPattern names p) (some (← readExpr x)) (← readExpr y)
  | _ => none

def readArms : List Sexp → Option (List CaseArm)
  | [] => some []
  | x :: xs => do return (← readArm x) :: (← readArms xs)

end

def readOptional : List Sexp → Option (Option Expr)
  | [] => some none
  | [x] => do return some (← readExpr names x)
  | _ => none

def readClause : Sexp → Option (Option Expr)
  | .list [] => some none
  | x => do return some (← readExpr names x)

mutual

/-- The statement that a dump shows, without places. -/
def readStmt : Sexp → Option Stmt
  | .list (.atom head :: items) =>
    match head, items with
    | "expr", [x] => do return .expr (← readExpr names x)
    | "print", [x] => do return .print (← readExpr names x) default
    | "var", n :: xs => do return .varDecl (← readName names n) (← readOptional names xs)
    | "block", ss => do return .block (← readStmts ss) default
    | "fn", xs => do return .fnDecl (← readFunction xs)
    | "class", n :: .atom "<" :: m :: ms => do
      return .classDecl (← readName names n) (some (← readName names m)) (← readMethods ms)
    | "class", n :: ms => do return .classDecl (← readName names n) none (← readMethods ms)
    | "return", xs => do return .ret (← readOptional names xs) default
    | "while", [x, s] => do return .whileLoop (← readExpr names x) (← readStmt s) default
    | "loop", ss => do return .forever (← readStmts ss) default
    | "for", [.list [], x, y, s] => do
      return .forLoop none (← readClause names x) (← readClause names y) (← readStmt s) default
    | "for", [i, x, y, s] => do
      return .forLoop (some (← readStmt i)) (← readClause names x) (← readClause names y)
        (← readStmt s) default
    | _, _ => none
  | _ => none

def readStmts : List Sexp → Option (List Stmt)
  | [] => some []
  | s :: ss => do return (← readStmt s) :: (← readStmts ss)

def readFunction : List Sexp → Option FunctionDecl
  | n :: .list params :: body => do
    return .mk (← readName names n) (← readNames names params) (← readStmts body)
  | _ => none

def readMethod : Sexp → Option FunctionDecl
  | .list (.atom "method" :: items) => readFunction items
  | _ => none

def readMethods : List Sexp → Option (List FunctionDecl)
  | [] => some []
  | m :: ms => do return (← readMethod m) :: (← readMethods ms)

end

end

/-! ## Atoms -/

/-- An atom without quotes. -/
theorem Clear.word {word : String} (h : word ≠ "" ∧ word.toList.all isPlain = true) :
    (Sexp.atom word).Clear :=
  .atom (.plain (by simpa using h.1) (List.all_eq_true.mp h.2))

theorem Clear.form {head : String} (hhead : head ≠ "" ∧ head.toList.all isPlain = true)
    (h : ∀ x ∈ items, Clear x) :
    (Sexp.form head items).Clear :=
  .list (List.forall_mem_cons.mpr ⟨.word hhead, h⟩)

variable {names : Interner}

theorem isPlain_of_class {p : Char → Bool} (h : p c = true)
    (hp : p ' ' = false ∧ p '\n' = false ∧ p '(' = false ∧ p ')' = false ∧ p '"' = false) :
    isPlain c = true := by
  obtain ⟨hspace, hnewline, hopen, hclose, hquote⟩ := hp
  simp only [isPlain, Bool.and_eq_true, bne_iff_ne]
  refine ⟨⟨⟨⟨?_, ?_⟩, ?_⟩, ?_⟩, ?_⟩ <;> rintro rfl
  · cases h.symm.trans hspace
  · cases h.symm.trans hnewline
  · cases h.symm.trans hopen
  · cases h.symm.trans hclose
  · cases h.symm.trans hquote

/-- A word has no blank, quote or parenthesis in it. -/
theorem delimited_word {text : String}
    (h : ∃ c cs, text.toList = c :: cs ∧ Lexeme.isWordStart c = true ∧
        ∀ c ∈ cs, Lexeme.isWordPart c = true) :
    Delimited text.toList := by
  obtain ⟨c, cs, htext, hc, hcs⟩ := h
  rw [htext]
  refine .plain (List.cons_ne_nil c cs) fun d hd =>
    isPlain_of_class (p := Lexeme.isWordPart) ?_ (by decide)
  rcases List.mem_cons.mp hd with rfl | hd
  · exact Lexeme.isWordPart_of_isWordStart hc
  · exact hcs d hd

/-- The text of a number has no characters that could end it. -/
theorem plain_number {x : Number} (hpos : x.isNegative = false) (hfin : x.isFinite = true) :
    x.sourceText.toList ≠ [] ∧ ∀ c ∈ x.sourceText.toList, isPlain c = true := by
  obtain ⟨whole, fraction, htext, hne, hwhole, hfraction, -⟩ := Number.exists_sourceText hpos hfin
  have hdigit : ∀ {c}, Lexeme.isDigit c = true → isPlain c = true :=
    fun h => isPlain_of_class h (by decide)
  rw [htext]
  cases fraction with
  | nil => exact ⟨hne, fun c hc => hdigit (hwhole c hc)⟩
  | cons d ds =>
    refine ⟨by simp [Decimal.pointed], fun c hc => ?_⟩
    rcases List.mem_append.mp hc with hc | hc
    · exact hdigit (hwhole c hc)
    rcases List.mem_cons.mp hc with rfl | hc
    · rfl
    · exact hdigit (hfraction c hc)

/-- The dump of a constant is its canonical text. -/
theorem literal_eq (value : Literal) :
    literal names value = .atom ((Layout.literal value).text names) := by
  cases value with
  | number x =>
    rw [Layout.literal]
    split
    · next h =>
      rw [Bool.and_eq_true, Bool.not_eq_true'] at h
      rw [literal, Number.sourceText_of_isNegative h.1 h.2]
      simp [Layout.text, Layout.mark, TokenKind.sourceText, Punct.text]
    · simp [literal, Layout.text, TokenKind.sourceText]
  | str contents => simp [literal, Layout.literal, Layout.text, TokenKind.sourceText]
  | bool b =>
    cases b <;> simp [literal, Layout.literal, Layout.text, Layout.word, TokenKind.sourceText,
      Keyword.text]
  | nil =>
    simp [literal, Layout.literal, Layout.text, Layout.word, TokenKind.sourceText, Keyword.text]

theorem clear_literal {value : Literal}
    (h : ∀ k ∈ (Layout.literal value).tokens, k.Readable names) :
    (literal names value).Clear := by
  cases value with
  | number x =>
    rw [Layout.literal] at h
    refine .atom ?_
    split at h
    · next hneg =>
      rw [Bool.and_eq_true, Bool.not_eq_true'] at hneg
      obtain ⟨hpos, hfin⟩ := h (.number x.abs) (by simp)
      rw [Number.sourceText_of_isNegative hneg.1 hneg.2, String.toList_append]
      exact .plain (by simp) (by simpa [isPlain] using (plain_number hpos hfin).2)
    · obtain ⟨hpos, hfin⟩ := h (.number x) (by simp)
      exact .plain (plain_number hpos hfin).1 (plain_number hpos hfin).2
  | str contents =>
    have hquote := (h (.str contents) (by simp [Layout.literal])).1
    refine .atom ?_
    simpa using Delimited.quoted hquote
  | bool b => cases b <;> exact .word (by decide)
  | nil => exact .word (by decide)

/-- A fine layout is read back as its tokens. -/
theorem wordsOf_text {l : Layout} (hl : l.Fine) (hr : ∀ k ∈ l.tokens, k.Readable names) :
    wordsOf names (l.text names) = l.tokens := by
  have hspaced : l.Spaced := by simpa using hl [] trivial trivial
  obtain ⟨tokens, hscan, hkinds⟩ := scan_text hspaced hr
  rw [wordsOf, hscan, List.map_append, hkinds]
  exact List.dropLast_concat

theorem clear_name {n : Ident} (h : TokenKind.Readable names (.ident n.name)) :
    (name names n).Clear :=
  .atom (delimited_word h.1.word)

/-- A name is found in the table again. -/
theorem readName_name {n : Ident} (h : TokenKind.Readable names (.ident n.name)) :
    readName names (name names n) = some n.bare := by
  rw [name, readName, h.2]
  rfl

theorem wordsOf_token {k : TokenKind} {text : String} (hk : k.Readable names)
    (hdot : k ≠ .punct .dot) (htext : k.sourceText names = text) : wordsOf names text = [k] := by
  have hwords := wordsOf_text (Layout.fine_token hdot) (by simpa using hk)
  simpa [Layout.text, htext] using hwords

/-! ## Trees -/

/-- The dump shows where it ends, and is read as `a`. -/
structure Shows (read : Sexp → Option α) (x : Sexp) (a : α) : Prop where
  clear : x.Clear
  read : read x = some a

/-- The dumps show where they end, and are read as `a`. -/
structure ShowsAll (read : List Sexp → Option α) (xs : List Sexp) (a : α) : Prop where
  clear : ∀ x ∈ xs, x.Clear
  read : read xs = some a

section

variable {readAll : List Sexp → Option (List α)}

theorem ShowsAll.nil (hread : readAll [] = some []) : ShowsAll readAll [] [] :=
  ⟨fun _ h => absurd h List.not_mem_nil, hread⟩

/-- Lists are shown if their items are. -/
theorem ShowsAll.cons {read : Sexp → Option α}
    (hread : readAll (x :: xs) = do return (← read x) :: (← readAll xs)) (hx : Shows read x a)
    (hxs : ShowsAll readAll xs as) : ShowsAll readAll (x :: xs) (a :: as) := by
  refine ⟨List.forall_mem_cons.mpr ⟨hx.clear, hxs.clear⟩, ?_⟩
  rw [hread, hx.read, hxs.read]
  rfl

end

mutual

/-- A pattern is read back from its dump but for its places. -/
theorem shows_pattern : ∀ p : Pattern, (∀ k ∈ p.words, k.Readable names) →
    Shows (readPattern names) (pattern names p) p.bare
  | .unit _, _ => ⟨.list (by simp), by simp only [pattern, readPattern, Pattern.bare]⟩
  | .var n, h => by
    have hn := h (.ident n.name) (by simp)
    refine ⟨clear_name hn, ?_⟩
    have hwords : wordsOf names (names.nameOf n.name) = [.ident n.name] :=
      wordsOf_token hn (by simp) rfl
    rw [pattern, name, readPattern, hwords]
    rfl
  | .literal value _, h => by
    refine ⟨clear_literal h, ?_⟩
    rw [pattern, literal_eq, readPattern, wordsOf_text (Layout.fine_literal value) h]
    simp only [Pattern.ofWords?, Literal.ofWords?_tokens, Pattern.bare]
  | .wild _, _ => by
    have hwords : wordsOf names "_" = [.punct .underscore] := wordsOf_token trivial (by simp) rfl
    refine ⟨Clear.word (by decide), ?_⟩
    rw [pattern, readPattern, hwords]
    rfl
  | .named n p, h => by
    have hn := h (.ident n.name) (by simp)
    have hp := shows_pattern p fun k hk => h k (by simp [hk])
    refine ⟨.form (by decide) (by simp [clear_name hn, hp.clear]), ?_⟩
    simp [pattern, form, readPattern, readName_name hn, hp.read, Pattern.bare]
  | .tuple ps _, h | .vector ps _, h => by
    have hps := shows_patterns ps fun p hp k hk => h k (by simp [mem_joinWords hp hk])
    refine ⟨.form (by decide) hps.clear, ?_⟩
    simp [pattern, form, readPattern, hps.read, Pattern.bare]

theorem shows_patterns : ∀ ps : List Pattern, (∀ p ∈ ps, ∀ k ∈ p.words, k.Readable names) →
    ShowsAll (readPatterns names) (patterns names ps) (Pattern.bareAll ps)
  | [], _ => .nil (by rw [readPatterns])
  | p :: ps, h => by
    obtain ⟨hp, hps⟩ := List.forall_mem_cons.mp h
    exact .cons (by rw [readPatterns]) (shows_pattern p hp) (shows_patterns ps hps)

end

mutual

/-- The same for expressions, one case for each form. -/
theorem shows_expr :
    ∀ e : Expr, (∀ k ∈ e.words, k.Readable names) → Shows (readExpr names) (expr names e) e.bare
  | .literal value _, h => by
    refine ⟨clear_literal h, ?_⟩
    rw [expr, literal_eq, readExpr, wordsOf_text (Layout.fine_literal value) h]
    simp only [Expr.ofWords?, Literal.ofWords?_tokens, Expr.bare]
  | .var n, h => by
    have hn := h (.ident n.name) (by simp)
    refine ⟨clear_name hn, ?_⟩
    have hwords : wordsOf names (names.nameOf n.name) = [.ident n.name] :=
      wordsOf_token hn (by simp) rfl
    rw [expr, name, readExpr, hwords]
    rfl
  | .this _, _ => by
    have hwords : wordsOf names "this" = [.keyword .this] := wordsOf_token trivial (by simp) rfl
    refine ⟨Clear.word (by decide), ?_⟩
    rw [expr, readExpr, hwords]
    rfl
  | .grouping e _, h => by
    have he := shows_expr e fun k hk => h k (by simp [hk])
    refine ⟨.form (by decide) (by simp [he.clear]), ?_⟩
    simp [expr, form, readExpr, he.read, Expr.bare]
  | .unary op e _, h => by
    have he := shows_expr e fun k hk => h k (by simp [hk])
    refine ⟨.form (by cases op <;> decide) (by simp [he.clear]), ?_⟩
    cases op <;> simp [expr, form, readExpr, he.read, Expr.bare, UnaryOp.text, UnaryOp.mark,
      Punct.text, UnaryOp.ofText?]
  | .binary left op right _, h => by
    have hleft := shows_expr left fun k hk => h k (by simp [hk])
    have hright := shows_expr right fun k hk => h k (by simp [hk])
    refine ⟨.form (by cases op <;> decide) (by simp [hleft.clear, hright.clear]), ?_⟩
    cases op <;> simp [expr, form, readExpr, hleft.read, hright.read, Expr.bare, BinaryOp.text,
      BinaryOp.token, Punct.text, BinaryOp.ofText?, TokenKind.display, Keyword.text]
  | .assign n e, h => by
    have hn := h (.ident n.name) (by simp)
    have he := shows_expr e fun k hk => h k (by simp [hk])
    refine ⟨.form (by decide) (by simp [clear_name hn, he.clear]), ?_⟩
    simp [expr, form, readExpr, readName_name hn, he.read, Expr.bare]
  | .call callee args _, h => by
    have hcallee := shows_expr callee fun k hk => h k (by simp [hk])
    have hargs := shows_exprs args fun e he k hk => h k (by simp [mem_joinWords he hk])
    refine ⟨.form (by decide) (List.forall_mem_cons.mpr ⟨hcallee.clear, hargs.clear⟩), ?_⟩
    simp [expr, form, readExpr, hcallee.read, hargs.read, Expr.bare]
  | .get object n, h => by
    have hobject := shows_expr object fun k hk => h k (by simp [hk])
    have hn := h (.ident n.name) (by simp)
    refine ⟨.form (by decide) (by simp [hobject.clear, clear_name hn]), ?_⟩
    simp [expr, form, readExpr, hobject.read, readName_name hn, Expr.bare]
  | .set object n value, h => by
    have hobject := shows_expr object fun k hk => h k (by simp [hk])
    have hn := h (.ident n.name) (by simp)
    have hvalue := shows_expr value fun k hk => h k (by simp [hk])
    refine ⟨.form (by decide) (by simp [hobject.clear, clear_name hn, hvalue.clear]), ?_⟩
    simp [expr, form, readExpr, hobject.read, readName_name hn, hvalue.read, Expr.bare]
  | .super n _, h => by
    have hn := h (.ident n.name) (by simp)
    refine ⟨.form (by decide) (by simp [clear_name hn]), ?_⟩
    simp [expr, form, readExpr, readName_name hn, Expr.bare]
  | .letIn n definition body _, h => by
    have hn := h (.ident n.name) (by simp)
    have hdefinition := shows_expr definition fun k hk => h k (by simp [hk])
    have hbody := shows_expr body fun k hk => h k (by simp [hk])
    refine ⟨.form (by decide) (by simp [clear_name hn, hdefinition.clear, hbody.clear]), ?_⟩
    simp [expr, form, readExpr, readName_name hn, hdefinition.read, hbody.read, Expr.bare]
  | .seq es _, h | .tuple es _, h | .vector es _, h => by
    have hes := shows_exprs es fun e he k hk => h k (by simp [mem_joinWords he hk])
    refine ⟨.form (by decide) hes.clear, ?_⟩
    simp [expr, form, readExpr, hes.read, Expr.bare]
  | .cond condition yes no _, h => by
    have hcondition := shows_expr condition fun k hk => h k (by simp [hk])
    have hyes := shows_expr yes fun k hk => h k (by simp [hk])
    have hno := shows_expr no fun k hk => h k (by simp [hk])
    refine ⟨.form (by decide) (by simp [hcondition.clear, hyes.clear, hno.clear]), ?_⟩
    simp [expr, form, readExpr, hcondition.read, hyes.read, hno.read, Expr.bare]
  | .case scrutinee as _, h => by
    have hscrutinee := shows_expr scrutinee fun k hk => h k (by simp [hk])
    have has := shows_arms as fun a ha k hk => h k (by simp [mem_joinWords ha hk])
    refine ⟨.form (by decide) (List.forall_mem_cons.mpr ⟨hscrutinee.clear, has.clear⟩), ?_⟩
    simp [expr, form, readExpr, hscrutinee.read, has.read, Expr.bare]

theorem shows_exprs : ∀ es : List Expr, (∀ e ∈ es, ∀ k ∈ e.words, k.Readable names) →
    ShowsAll (readExprs names) (exprs names es) (Expr.bareAll es)
  | [], _ => .nil (by rw [readExprs])
  | e :: es, h => by
    obtain ⟨he, hes⟩ := List.forall_mem_cons.mp h
    exact .cons (by rw [readExprs]) (shows_expr e he) (shows_exprs es hes)

theorem shows_arm :
    ∀ a : CaseArm, (∀ k ∈ a.words, k.Readable names) → Shows (readArm names) (arm names a) a.bare
  | .mk p none body, h => by
    have hp := shows_pattern p fun k hk => h k (by simp [hk])
    have hbody := shows_expr body fun k hk => h k (by simp [hk])
    refine ⟨.list (by simp [hp.clear, hbody.clear]), ?_⟩
    simp [arm, readArm, hp.read, hbody.read, CaseArm.bare]
  | .mk p (some guard) body, h => by
    have hp := shows_pattern p fun k hk => h k (by simp [hk])
    have hguard := shows_expr guard fun k hk => h k (by simp [hk])
    have hbody := shows_expr body fun k hk => h k (by simp [hk])
    have hif : (atom "if").Clear := .word (by decide)
    refine ⟨.list (by simp [hp.clear, hif, hguard.clear, hbody.clear]), ?_⟩
    simp [arm, readArm, hp.read, hguard.read, hbody.read, CaseArm.bare]

theorem shows_arms : ∀ as : List CaseArm, (∀ a ∈ as, ∀ k ∈ a.words, k.Readable names) →
    ShowsAll (readArms names) (arms names as) (CaseArm.bareAll as)
  | [], _ => .nil (by rw [readArms])
  | a :: as, h => by
    obtain ⟨ha, has⟩ := List.forall_mem_cons.mp h
    exact .cons (by rw [readArms]) (shows_arm a ha) (shows_arms as has)

end

theorem shows_names : ∀ ns : List Ident, (∀ n ∈ ns, TokenKind.Readable names (.ident n.name)) →
    ShowsAll (readNames names) (ns.map (name names)) (ns.map Ident.bare)
  | [], _ => .nil (by rw [readNames])
  | n :: ns, h => by
    obtain ⟨hn, hns⟩ := List.forall_mem_cons.mp h
    exact .cons (by rw [readNames]) ⟨clear_name hn, readName_name hn⟩ (shows_names ns hns)

theorem shows_optional (e : Option Expr) (h : ∀ k ∈ e.elim [] Expr.words, k.Readable names) :
    ShowsAll (readOptional names) (optional names e) (e.map Expr.bare) := by
  cases e with
  | none => exact ⟨by simp [optional], by simp [optional, readOptional]⟩
  | some e =>
    have he := shows_expr e h
    exact ⟨by simp [optional, he.clear], by simp [optional, readOptional, he.read]⟩

/-- A clause that is left out is shown as well, as others follow it. -/
theorem shows_clause (e : Option Expr) (h : ∀ k ∈ e.elim [] Expr.words, k.Readable names) :
    Shows (readClause names) (clause names e) (e.map Expr.bare) := by
  cases e with
  | none => exact ⟨.list (by simp), by simp [clause, readClause]⟩
  | some e =>
    have he := shows_expr e h
    refine ⟨he.clear, ?_⟩
    rw [clause, readClause, he.read]
    · rfl
    · intro hnil
      have hread := he.read
      rw [hnil] at hread
      simp [readExpr] at hread

mutual

/-- The same for statements. -/
theorem shows_stmt :
    ∀ s : Stmt, (∀ k ∈ s.words, k.Readable names) → Shows (readStmt names) (stmt names s) s.bare
  | .expr e, h => by
    have he := shows_expr e fun k hk => h k (by simp [hk])
    refine ⟨.form (by decide) (by simp [he.clear]), ?_⟩
    simp [stmt, form, readStmt, he.read, Stmt.bare]
  | .print e _, h => by
    have he := shows_expr e fun k hk => h k (by simp [hk])
    refine ⟨.form (by decide) (by simp [he.clear]), ?_⟩
    simp [stmt, form, readStmt, he.read, Stmt.bare]
  | .varDecl n e, h => by
    have hn := h (.ident n.name) (by cases e <;> simp)
    have he := shows_optional e fun k hk => h k (by cases e <;> simp_all)
    refine ⟨.form (by decide) (List.forall_mem_cons.mpr ⟨clear_name hn, he.clear⟩), ?_⟩
    simp [stmt, form, readStmt, readName_name hn, he.read, Stmt.bare]
  | .block ss _, h | .forever ss _, h => by
    have hss := shows_stmts ss fun s hs k hk => h k (by simp [List.mem_flatMap_of_mem hs hk])
    refine ⟨.form (by decide) hss.clear, ?_⟩
    simp [stmt, form, readStmt, hss.read, Stmt.bare]
  | .fnDecl decl, h => by
    obtain ⟨items, hform, hitems⟩ := shows_function decl fun k hk => h k (by simp [hk])
    rw [stmt, hform]
    refine ⟨.form (by decide) hitems.clear, ?_⟩
    simp [form, readStmt, hitems.read, Stmt.bare]
  | .classDecl n none ms, h => by
    have hn := h (.ident n.name) (by simp)
    have hms := shows_methods ms fun m hm k hk => h k (by simp [List.mem_flatMap_of_mem hm hk])
    refine ⟨.form (by decide) (List.forall_mem_cons.mpr ⟨clear_name hn, hms.clear⟩), ?_⟩
    -- a method is a list, so that what follows the name is no superclass
    have hmethod : ∀ m more, methods names ms ≠ .atom "<" :: m :: more := by
      cases ms with
      | nil => simp [methods]
      | cons m ms => cases m; simp [methods, function, form]
    simp [stmt, form, readStmt, readName_name hn, hms.read, Stmt.bare]
  | .classDecl n (some superclass) ms, h => by
    have hn := h (.ident n.name) (by simp)
    have hsuperclass := h (.ident superclass.name) (by simp)
    have hms := shows_methods ms fun m hm k hk => h k (by simp [List.mem_flatMap_of_mem hm hk])
    have hmark : (atom "<").Clear := .word (by decide)
    refine ⟨.form (by decide)
      (by simpa [clear_name hn, hmark, clear_name hsuperclass] using hms.clear), ?_⟩
    simp [stmt, form, readStmt, readName_name hn, readName_name hsuperclass, hms.read, Stmt.bare]
  | .ret e _, h => by
    have he := shows_optional e fun k hk => h k (by cases e <;> simp_all)
    refine ⟨.form (by decide) he.clear, ?_⟩
    simp [stmt, form, readStmt, he.read, Stmt.bare]
  | .whileLoop condition body _, h => by
    have hcondition := shows_expr condition fun k hk => h k (by simp [hk])
    have hbody := shows_stmt body fun k hk => h k (by simp [hk])
    refine ⟨.form (by decide) (by simp [hcondition.clear, hbody.clear]), ?_⟩
    simp [stmt, form, readStmt, hcondition.read, hbody.read, Stmt.bare]
  | .forLoop none condition increment body _, h => by
    have hcondition := shows_clause condition fun k hk => h k (by simp [hk])
    have hincrement := shows_clause increment fun k hk => h k (by simp [hk])
    have hbody := shows_stmt body fun k hk => h k (by simp [hk])
    have hinit : (list []).Clear := .list (by simp)
    refine ⟨.form (by decide)
      (by simp [hinit, hcondition.clear, hincrement.clear, hbody.clear]), ?_⟩
    simp [stmt, form, readStmt, hcondition.read, hincrement.read, hbody.read, Stmt.bare]
  | .forLoop (some init) condition increment body _, h => by
    have hinit := shows_stmt init fun k hk => h k (by simp [hk])
    have hcondition := shows_clause condition fun k hk => h k (by simp [hk])
    have hincrement := shows_clause increment fun k hk => h k (by simp [hk])
    have hbody := shows_stmt body fun k hk => h k (by simp [hk])
    refine ⟨.form (by decide)
      (by simp [hinit.clear, hcondition.clear, hincrement.clear, hbody.clear]), ?_⟩
    -- a statement is no empty list
    have hne : stmt names init ≠ list [] := by
      intro hnil
      have hread := hinit.read
      rw [hnil] at hread
      simp [readStmt] at hread
    simp [stmt, form, readStmt, hinit.read, hcondition.read, hincrement.read, hbody.read, Stmt.bare]

theorem shows_stmts : ∀ ss : List Stmt, (∀ s ∈ ss, ∀ k ∈ s.words, k.Readable names) →
    ShowsAll (readStmts names) (stmts names ss) (Stmt.bareAll ss)
  | [], _ => .nil (by rw [readStmts])
  | s :: ss, h => by
    obtain ⟨hs, hss⟩ := List.forall_mem_cons.mp h
    exact .cons (by rw [readStmts]) (shows_stmt s hs) (shows_stmts ss hss)

/-- A function is shown as its name, its parameters and its body, under any head. -/
theorem shows_function : ∀ decl : FunctionDecl, (∀ k ∈ decl.words, k.Readable names) →
    ∃ items, (∀ head, function names head decl = form head items) ∧
      ShowsAll (readFunction names) items decl.bare
  | .mk n params body, h => by
    have hn := h (.ident n.name) (by simp)
    have hparams := shows_names params fun n hn => h (.ident n.name) (by
      have hmem : .ident n.name ∈
          joinWords (.punct .comma) (params.map fun param => [.ident param.name]) :=
        mem_joinWords hn (List.mem_singleton_self _)
      simp [hmem])
    have hbody := shows_stmts body fun s hs k hk => h k (by simp [List.mem_flatMap_of_mem hs hk])
    refine ⟨_, fun _ =>
      rfl, by simpa [clear_name hn, Clear.list hparams.clear] using hbody.clear, ?_⟩
    simp [readFunction, readName_name hn, hparams.read, hbody.read, FunctionDecl.bare]

theorem shows_method : ∀ m : FunctionDecl, (∀ k ∈ m.words, k.Readable names) →
    Shows (readMethod names) (function names "method" m) m.bare
  | m, h => by
    obtain ⟨items, hform, hitems⟩ := shows_function m h
    rw [hform]
    refine ⟨.form (by decide) hitems.clear, ?_⟩
    simp [form, readMethod, hitems.read]

theorem shows_methods : ∀ ms : List FunctionDecl, (∀ m ∈ ms, ∀ k ∈ m.words, k.Readable names) →
    ShowsAll (readMethods names) (methods names ms) (FunctionDecl.bareAll ms)
  | [], _ => .nil (by rw [readMethods])
  | m :: ms, h => by
    obtain ⟨hm, hms⟩ := List.forall_mem_cons.mp h
    exact .cons (by rw [readMethods]) (shows_method m hm) (shows_methods ms hms)

end

end Sexp

end TreeWalk
