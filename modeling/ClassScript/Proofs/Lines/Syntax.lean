import ClassScript.Proofs.Lines.Scan
import ClassScript.Proofs.Syntax.Grammatical
import ClassScript.Syntax.Reading

/-!
# Programs below each other

The grammar does not look at lines.  If tokens are moved to other lines, they spell the
tree on these lines (`Spells.reline`).  And no declaration reaches into the one behind
it, so the tokens of two programs in a row spell the two programs
(`Spells.declarations_append`).

So a text with another one below it says what the two say (`Reading.ofSource_join`).
-/

namespace ClassScript

variable (f : Nat → Nat)

/-- A phrase on other lines. -/
def Phrase.reline : Phrase → Phrase
  | expression level e => expression level (e.reline f)
  | arguments es => arguments (relineExprs f es)
  | optional e => optional (e.map (Expr.reline f))
  | condition e => condition (e.reline f)
  | «variable» name value => «variable» (name.reline f) (value.map (Expr.reline f))
  | initializer start => initializer (start.map (Stmt.reline f))
  | statement s isOpen => statement (s.reline f) isOpen
  | elifs branches isOpen => elifs (relineElifs f branches) isOpen
  | block body => block (relineStmts f body)
  | code parameters body => code (parameters.map (Name.reline f)) (relineStmts f body)
  | function definition => function (definition.reline f)
  | methods fs => methods (relineFunctions f fs)
  | superclass parent => superclass (parent.map (Reference.reline f))
  | declaration s isOpen => declaration (s.reline f) isOpen
  | declarations body => declarations (relineStmts f body)

variable {f}

theorem Separated.reline {ts : List Token} {names : List Name}
    (h : Separated Token.Names ts names) :
    Separated Token.Names (ts.map (Token.reline f)) (names.map (Name.reline f)) := by
  have hname : ∀ {ts : List Token} {name : Name}, Token.Names ts name →
      Token.Names (ts.map (Token.reline f)) (name.reline f) := by
    rintro ts name ⟨t, hk, rfl, rfl⟩
    exact ⟨t.reline f, hk, rfl, rfl⟩
  induction h with
  | nil => exact .nil
  | single hitem => exact .single (hname hitem)
  | cons hitem hcomma _ ih =>
    rw [List.map_append, List.map_cons]
    exact .cons (hname hitem) hcomma ih

/-- Tokens on other lines spell the phrase on these lines. -/
theorem Spells.reline {ts : List Token} {phrase : Phrase} (h : Spells ts phrase) :
    Spells (ts.map (Token.reline f)) (phrase.reline f) := by
  induction h <;> try simp only [List.map_append, List.map_cons, List.map_nil]
  case falsity hk => exact .falsity hk
  case truth hk => exact .truth hk
  case nil hk => exact .nil hk
  case literal hk => exact .literal hk
  case this hk => exact .this hk
  case super hk hdot hmethod => exact .super hk hdot hmethod
  case «variable» hk => exact .variable hk
  case lambda hk _ ih => exact .lambda hk ih
  case grouping hopening _ hclosing ih => exact .grouping hopening ih hclosing
  case call hlevel _ hopening _ hlength hclosing ih ih' =>
    rw [← length_relineExprs f] at hlength
    exact .call hlevel ih hopening ih' hlength hclosing
  case get hlevel _ hdot hname ih => exact .get hlevel ih hdot hname
  case unary hlevel hk _ ih => exact .unary hlevel hk ih
  case binary hlevel _ hk _ ih ih' => exact .binary hlevel ih hk ih'
  case logical hlevel _ hk _ ih ih' => exact .logical hlevel ih hk ih'
  case assign hk hequal _ ih => exact .assign hk hequal ih
  case set _ hdot hname hequal _ ih ih' => exact .set ih hdot hname hequal ih'
  case noArguments => exact .noArguments
  case lastArgument _ ih => exact .lastArgument ih
  case arguments _ hcomma _ ih ih' => exact .arguments ih hcomma ih'
  case missing => exact .missing
  case present _ ih => exact .present ih
  case condition hopening _ hclosing ih => exact .condition hopening ih hclosing
  case plainVariable hword hname hsemicolon => exact .plainVariable hword hname hsemicolon
  case initializedVariable hword hname hequal _ hsemicolon ih =>
    exact .initializedVariable hword hname hequal ih hsemicolon
  case noInitializer hsemicolon => exact .noInitializer hsemicolon
  case variableInitializer _ ih =>
    rw [Phrase.reline, Option.map_some, Stmt.reline_var]
    exact .variableInitializer ih
  case expressionInitializer _ hsemicolon ih => exact .expressionInitializer ih hsemicolon
  case expressionStatement _ hsemicolon ih => exact .expressionStatement ih hsemicolon
  case print hword _ hsemicolon ih => exact .print hword ih hsemicolon
  case returnStmt hword _ hsemicolon ih =>
    rw [Phrase.reline, Stmt.reline_returnStmt]
    exact .returnStmt hword ih hsemicolon
  case breakStmt hword hsemicolon => exact .breakStmt hword hsemicolon
  case whileStmt hword _ _ ih ih' => exact .whileStmt hword ih ih'
  case forLoop hword hopening _ _ hsemicolon _ hclosing _ ih ih' ih'' ih''' =>
    rw [Phrase.reline, Stmt.reline_forLoop]
    exact .forLoop hword hopening ih ih' hsemicolon ih'' hclosing ih'''
  case ifStmt hword _ _ _ himp ih ih' ih'' =>
    exact .ifStmt hword ih ih' ih'' fun hopen => by rw [himp hopen]; rfl
  case ifElse hword _ _ _ hotherwise _ ih ih' ih'' ih''' =>
    exact .ifElse hword ih ih' ih'' hotherwise ih'''
  case noElifs => exact .noElifs
  case elifs hword _ _ _ himp ih ih' ih'' =>
    exact .elifs hword ih ih' ih'' fun hopen => by rw [himp hopen]; rfl
  case blockStatement _ ih => exact .blockStatement ih
  case block hopening _ hclosing ih => exact .block hopening ih hclosing
  case code hopening hnames hlength hclosing _ ih =>
    rw [← List.length_map (Name.reline f)] at hlength
    exact .code hopening hnames.reline hlength hclosing ih
  case function hname _ ih => exact .function hname ih
  case noMethods => exact .noMethods
  case methods _ _ ih ih' => exact .methods ih ih'
  case noSuperclass => exact .noSuperclass
  case superclass hless hname => exact .superclass hless hname
  case classDecl hword hname _ hopening _ hclosing ih ih' =>
    exact .classDecl hword hname ih hopening ih' hclosing
  case functionDecl hword _ ih => exact .functionDecl hword ih
  case variableDecl _ ih =>
    rw [Phrase.reline, Stmt.reline_var]
    exact .variableDecl ih
  case statementDecl _ ih => exact .statementDecl ih
  case noDeclarations => exact .noDeclarations
  case declarations _ _ ih ih' => exact .declarations ih ih'

/-- Declarations in sequence are spelled one sequence after the other. -/
theorem Spells.declarations_append {ts us : List Token} {p q : List (Stmt Unit)}
    (hp : Spells ts (.declarations p)) (hq : Spells us (.declarations q)) :
    Spells (ts ++ us) (.declarations (p ++ q)) := by
  induction p generalizing ts with
  | nil =>
    cases hp
    exact hq
  | cons s rest ih =>
    cases hp with
    | declarations hs hrest =>
      rw [List.append_assoc]
      exact .declarations hs (ih hrest)

/-! ## Readings -/

/-- Tokens that are read without a mistake are read so on any lines. -/
theorem Parse.ofTokens_reline {ts : List Token} {p : Program Unit}
    (h : Parse.ofTokens ts = ⟨p, []⟩) :
    Parse.ofTokens (ts.map (Token.reline f)) = ⟨relineStmts f p, []⟩ := by
  rw [Parse.ofTokens_eq_iff] at h ⊢
  exact h.reline

theorem Parse.ofTokens_append {ts us : List Token} {p q : Program Unit}
    (hp : Parse.ofTokens ts = ⟨p, []⟩) (hq : Parse.ofTokens us = ⟨q, []⟩) :
    Parse.ofTokens (ts ++ us) = ⟨p ++ q, []⟩ := by
  rw [Parse.ofTokens_eq_iff] at hp hq ⊢
  exact hp.declarations_append hq

theorem Reading.ofSource_eq_iff {source : String} {p : Program Unit} :
    Reading.ofSource source = ⟨p, []⟩ ↔
      (Scan.ofSource source).diagnostics = [] ∧
        Parse.ofTokens (Scan.ofSource source).tokens = ⟨p, []⟩ := by
  unfold Reading.ofSource Reading.ofScan
  cases hparse : Parse.ofTokens (Scan.ofSource source).tokens with
  | mk program mistakes =>
    simp only [Reading.mk.injEq, Parse.mk.injEq, List.append_eq_nil_iff, List.map_eq_nil_iff]
    constructor
    · rintro ⟨rfl, hscan, rfl⟩
      exact ⟨hscan, rfl, rfl⟩
    · rintro ⟨hscan, rfl, rfl⟩
      exact ⟨rfl, hscan, rfl⟩

/-- Two texts without mistakes, one below the other, say what both of them say. -/
theorem Reading.ofSource_join {a b : String} {p q : Program Unit}
    (ha : Reading.ofSource a = ⟨p, []⟩) (hb : Reading.ofSource b = ⟨q, []⟩) :
    Reading.ofSource (a ++ "\n" ++ b) =
      ⟨p ++ relineStmts (· + (newlines a.toList + 1)) q, []⟩ := by
  rw [Reading.ofSource_eq_iff] at ha hb ⊢
  have htext : (a ++ "\n" ++ b).toList = a.toList ++ '\n' :: b.toList := by simp
  have hscan := Scan.ofChars_join ha.1 b.toList
  unfold Scan.ofSource at ha hb ⊢
  rw [htext, hscan]
  dsimp only
  rw [hb.1]
  exact ⟨rfl, Parse.ofTokens_append ha.2 (Parse.ofTokens_reline hb.2)⟩

/-- A text of that many newlines. -/
def blankLines (k : Nat) : String := String.ofList (List.replicate k '\n')

/-- A text without mistakes says the same below blank lines, only further down. -/
theorem Reading.ofSource_blankLines (k : Nat) {b : String} {q : Program Unit}
    (hb : Reading.ofSource b = ⟨q, []⟩) :
    Reading.ofSource (blankLines k ++ b) = ⟨relineStmts (· + k) q, []⟩ := by
  rw [Reading.ofSource_eq_iff] at hb ⊢
  have htext : (blankLines k ++ b).toList = List.replicate k '\n' ++ b.toList := by
    simp [blankLines]
  unfold Scan.ofSource at hb ⊢
  rw [htext, Scan.ofChars_replicate]
  dsimp only
  rw [hb.1]
  exact ⟨rfl, Parse.ofTokens_reline hb.2⟩

end ClassScript
