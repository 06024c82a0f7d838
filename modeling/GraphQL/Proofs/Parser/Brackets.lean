import GraphQL.Parser.Executable
import GraphQL.Proofs.Parser.Conforms.Basic

/-! The brackets that are open behind tokens, and parsers that close each bracket they open. Where such a parser
stops, the brackets around that place are open and those it has left are closed. -/
namespace GraphQL

/-- The punctuator that closes what this one opens. -/
def Punctuator.closing? : Punctuator → Option Punctuator
  | braceOpen => some braceClose
  | parenOpen => some parenClose
  | bracketOpen => some bracketClose
  | _ => none

def Punctuator.isBracket : Punctuator → Bool
  | braceOpen | parenOpen | bracketOpen | braceClose | parenClose | bracketClose => true
  | _ => false

namespace Token

/-- Whether the punctuator closes the bracket that the token is. -/
def IsClosedBy (t : Token) (close : Punctuator) : Prop :=
  ∃ p, t.kind = .punctuator p ∧ p.closing? = some close

instance (t : Token) (close : Punctuator) : Decidable (t.IsClosedBy close) :=
  match h : t.kind with
  | .punctuator p => decidable_of_iff (p.closing? = some close) (by simp [IsClosedBy, h])
  | .name | .int | .float | .string | .blockString | .illegal | .eof => isFalse (by simp [IsClosedBy, h])

end Token

/-- The brackets that are open behind a token, innermost first, if those in `opened` are open before it. A closing
bracket closes the innermost one if it is of its sort, and is left alone otherwise. -/
def openBehind (opened : List Token) (t : Token) : List Token :=
  match t.kind, opened with
  | .punctuator p, [] => if p.closing?.isSome then [t] else []
  | .punctuator p, o :: outer =>
    if p.closing?.isSome then t :: o :: outer
    else if o.IsClosedBy p then outer
    else o :: outer
  | _, _ => opened

/-- The brackets that are open at the end of the tokens, innermost first. -/
def openBrackets (tokens : List Token) : List Token := tokens.foldl openBehind []

/-- The selection sets among open brackets: the braces that no parenthesis surrounds. -/
def unclosedSets : List Token → List Token
  | [] => []
  | t :: outer =>
    if t.kind = .punctuator .braceOpen ∧ ∀ u ∈ outer, u.kind ≠ .punctuator .parenOpen then t :: unclosedSets outer
    else unclosedSets outer

/-- The note on a selection set that is opened at this place and never closed. -/
def unclosedNote (line position : Nat) : Note :=
  ⟨.general, "selection set opened at " ++ toString line ++ ":" ++ toString position ++ " was never closed"⟩

/-- The error is about the end of input. -/
def SyntaxError.IsUnexpectedEof (e : SyntaxError) : Prop := ∃ expected, e.kind = .unexpectedEof expected

section
variable {t o : Token} {p : Punctuator} {opened outer : List Token}

theorem openBehind_of_opening (h : t.kind = .punctuator p) (hp : p.closing?.isSome) :
    openBehind outer t = t :: outer := by
  cases outer <;> simp [openBehind, h, hp]

theorem openBehind_of_closing (h : t.kind = .punctuator p) (ho : o.IsClosedBy p) :
    openBehind (o :: outer) t = outer := by
  have closing : p.closing? = none := by
    obtain ⟨q, -, hq⟩ := ho
    cases q <;> cases hq <;> rfl
  simp [openBehind, h, closing, ho]

theorem openBehind_of_plain (h : ∀ p, t.kind = .punctuator p → p.isBracket = false) :
    openBehind outer t = outer := by
  have opens_nothing {p : Punctuator} (hp : p.isBracket = false) : p.closing? = none := by
    cases p <;> cases hp <;> rfl
  have closes_nothing {p : Punctuator} (hp : p.isBracket = false) (o : Token) : ¬ o.IsClosedBy p := by
    rintro ⟨q, -, hq⟩
    cases q <;> cases hq <;> cases hp
  unfold openBehind
  split
  · next p hk => simp [opens_nothing (h p hk)]
  · next p o outer hk => simp [opens_nothing (h p hk), closes_nothing (h p hk)]
  · rfl

theorem unclosedSets_append_brace (h : o.kind = .punctuator .braceOpen) :
    unclosedSets (opened ++ [o]) = unclosedSets opened ++ [o] := by
  induction opened with
  | nil => simp [unclosedSets, h]
  | cons t opened ih => simp only [List.cons_append, unclosedSets, ih]; split <;> simp_all

theorem unclosedSets_append_paren (h : o.kind = .punctuator .parenOpen) : unclosedSets (opened ++ [o]) = [] := by
  induction opened with
  | nil => simp [unclosedSets, h]
  | cons t opened ih => simp [unclosedSets, ih, h]

end

namespace Parser
variable {α β : Type}

/-- How a parser treats brackets at a stream, with those in `under` open around it. What it consumes closes them and
all that it opens. Where it fails they are still open, and those that it has opened there, as far as they are `shown`,
are noted on an error about the end of input. -/
inductive Closes (shown : List Token → List Token) (under : List Token) (p : Parser α) (s : TokenStream) : Prop where
  | ok (a : α) (ts : List Token) (s' : TokenStream) (run : p s = .ok a s') (reads : s.Reads ts s')
      (closed : ∀ outer, ts.foldl openBehind (under ++ outer) = outer)
  | error (e : SyntaxError) (ts opened : List Token) (s' : TokenStream) (run : p s = .error e s')
      (reads : s.Reads ts s') (left : ∀ outer, ts.foldl openBehind (under ++ outer) = opened ++ (under ++ outer))
      (noted : e.IsUnexpectedEof → e.notes = (shown opened).map fun t => unclosedNote t.line t.position)

/-- Which open brackets notes may be about: none where nothing is open, and none in parentheses. -/
structure Shows (shown : List Token → List Token) : Prop where
  nil : shown [] = []
  paren : ∀ opened o, o.kind = .punctuator .parenOpen → shown (opened ++ [o]) = []

namespace Closes
variable {shown shown' : List Token → List Token} {under : List Token} {p : Parser α} {f : α → Parser β}
  {s : TokenStream}

theorem pure (a : α) : Closes shown [] (Pure.pure a : Parser α) s := .ok a [] s rfl .done fun _ => rfl

theorem bind (h : Closes shown [] p s) (more : ∀ a s', p s = .ok a s' → Closes shown under (f a) s') :
    Closes shown under (p >>= f) s := by
  cases h with
  | error e ts opened s' run reads left noted =>
    exact .error e ts opened s' (bind_error run) reads (fun outer => left (under ++ outer)) noted
  | ok a ts s' run reads closed =>
    have passed (vs outer : List Token) :
        (ts ++ vs).foldl openBehind (under ++ outer) = vs.foldl openBehind (under ++ outer) := by
      rw [List.foldl_append]
      exact congrArg (vs.foldl openBehind) (closed (under ++ outer))
    cases more a s' run with
    | ok b vs s'' run' reads' closed' =>
      exact .ok b (ts ++ vs) s'' ((bind_ok run).trans run') (reads.append reads') fun outer =>
        (passed vs outer).trans (closed' outer)
    | error e vs opened s'' run' reads' left noted =>
      exact .error e (ts ++ vs) opened s'' ((bind_ok run).trans run') (reads.append reads')
        (fun outer => (passed vs outer).trans (left outer)) noted

/-- What cannot fail may follow what closes a bracket. -/
theorem bind_total (h : Closes shown under p s)
    (more : ∀ a s', ∃ b ts s'', f a s' = .ok b s'' ∧ s'.Reads ts s'' ∧ ∀ outer, ts.foldl openBehind outer = outer) :
    Closes shown under (p >>= f) s := by
  cases h with
  | error e ts opened s' run reads left noted => exact .error e ts opened s' (bind_error run) reads left noted
  | ok a ts s' run reads closed =>
    obtain ⟨b, vs, s'', run', reads', plain⟩ := more a s'
    refine .ok b (ts ++ vs) s'' ((bind_ok run).trans run') (reads.append reads') fun outer => ?_
    rw [List.foldl_append, closed, plain]

theorem map (h : Closes shown under p s) (g : α → β) : Closes shown under (p >>= fun a => Pure.pure (g a)) s :=
  h.bind_total fun a s' => ⟨g a, [], s', rfl, .done, fun _ => rfl⟩

theorem peek_bind {f : Token → Parser α} (h : Closes shown under (f s.peek) s) :
    Closes shown under (peek >>= f) s := by
  cases h with
  | ok a ts s' run reads closed => exact .ok a ts s' run reads closed
  | error e ts opened s' run reads left noted => exact .error e ts opened s' run reads left noted

/-- An error at the next token, unless it is about the end of input, tells nothing of brackets. -/
theorem fail {e : SyntaxError} (run : p s = .error e s) (h : e.IsUnexpectedEof → shown [] = [] ∧ e.notes = []) :
    Closes shown under p s :=
  .error e [] [] s run .done (fun _ => rfl) fun he => by simp [h he]

/-- The note on an opened selection set. -/
theorem noted {o : Token} (h : Closes shown under p s) :
    Closes (fun opened => shown opened ++ [o]) under (Parser.mapError (noteUnclosed o) p) s := by
  cases h with
  | ok a ts s' run reads closed => exact .ok a ts s' (by simp [Parser.mapError, run]) reads closed
  | error e ts opened s' run reads left noted =>
    refine .error (noteUnclosed o e) ts opened s' (by simp [Parser.mapError, run]) reads left ?_
    unfold noteUnclosed
    split
    · next expected hk =>
      intro
      simp [SyntaxError.addNote, noted ⟨expected, hk⟩, unclosedNote]
    · next other =>
      rintro ⟨expected, hk⟩
      exact absurd hk (other expected)

/-- Consuming a token that is no bracket. -/
theorem advance_bind {f : Unit → Parser α} (hk : s.peek.kind ≠ .eof)
    (plain : ∀ p, s.peek.kind = .punctuator p → p.isBracket = false) (h : Closes shown under (f ()) s.advance) :
    Closes shown under (advance >>= f) s :=
  bind (.ok () [s.peek] s.advance rfl (.one hk) fun _ => openBehind_of_plain plain) fun _ _ run => by
    cases run
    exact h

/-- Consuming a name. -/
theorem name_bind {name : String} {f : Unit → Parser α} (hn : s.peek.name? = some name)
    (h : Closes shown under (f ()) s.advance) : Closes shown under (advance >>= f) s := by
  have kind : s.peek.kind = .name := Token.kind_of_name hn
  exact advance_bind (by simp [kind]) (by simp [kind]) h

/-- Consuming a bracket that opens. What is shown of the brackets around it is up to the caller. -/
theorem opening_bind {p : Punctuator} {f : Unit → Parser α} (hk : s.peek.kind = .punctuator p)
    (hp : p.closing?.isSome) (h : Closes shown [s.peek] (f ()) s.advance)
    (around : ∀ opened, shown' (opened ++ [s.peek]) = shown opened) : Closes shown' [] (advance >>= f) s := by
  have step (outer : List Token) : openBehind outer s.peek = s.peek :: outer := openBehind_of_opening hk hp
  have reads {ts s'} (h : s.advance.Reads ts s') : s.Reads (s.peek :: ts) s' := .step (by simp [hk]) h
  cases h with
  | ok a ts s' run rest closed =>
    refine .ok a (s.peek :: ts) s' run (reads rest) fun outer => ?_
    rw [List.foldl_cons, List.nil_append, step]
    exact closed outer
  | error e ts opened s' run rest left noted =>
    refine .error e (s.peek :: ts) (opened ++ [s.peek]) s' run (reads rest) (fun outer => ?_) ?_
    · rw [List.foldl_cons, List.nil_append, step]
      exact (left outer).trans (by simp)
    · rwa [around]

/-- Consuming the bracket that closes. -/
theorem closing {o : Token} {p : Punctuator} (hk : s.peek.kind = .punctuator p) (ho : o.IsClosedBy p) (a : α) :
    Closes shown [o] (advance >>= fun _ => Pure.pure a) s :=
  .ok a [s.peek] s.advance rfl (.one (by simp [hk])) fun _ => openBehind_of_closing hk ho

/-- Parsers that run alike. -/
theorem congr {q : Parser α} (h : Closes shown under q s) (same : p s = q s) : Closes shown under p s := by
  cases h with
  | ok a ts s' run reads closed => exact .ok a ts s' (same.trans run) reads closed
  | error e ts opened s' run reads left noted => exact .error e ts opened s' (same.trans run) reads left noted

theorem isAt_bind {p : Punctuator} {f : Bool → Parser α} (ht : Closes shown under (f true) s)
    (hf : Closes shown under (f false) s) : Closes shown under (isAt p >>= f) s := by
  refine congr (q := f (s.peek.kind = .punctuator p)) ?_ rfl
  cases decide (s.peek.kind = .punctuator p)
  · exact hf
  · exact ht

theorem isAtKeyword_bind {keyword : String} {f : Bool → Parser α}
    (ht : s.peek.name? = some keyword → Closes shown under (f true) s) (hf : Closes shown under (f false) s) :
    Closes shown under (isAtKeyword keyword >>= f) s := by
  refine congr (q := f (s.peek.isKeyword keyword)) ?_ rfl
  cases hk : s.peek.isKeyword keyword with
  | true => exact ht (Token.isKeyword_iff.mp hk)
  | false => exact hf

theorem accept_bind {p : Punctuator} {f : Bool → Parser α}
    (ht : s.peek.kind = .punctuator p → Closes shown under (advance >>= fun _ => f true) s)
    (hf : Closes shown under (f false) s) : Closes shown under (accept p >>= f) s := by
  by_cases hk : s.peek.kind = .punctuator p
  · exact (ht hk).congr (by rw [accept_run, if_pos hk, advance_run])
  · exact hf.congr (by rw [accept_run, if_neg hk])

/-- Accepting what is no bracket. -/
theorem accept_plain {p : Punctuator} (plain : p.isBracket = false) {f : Bool → Parser α}
    (h : ∀ c s', Closes shown under (f c) s') : Closes shown under (accept p >>= f) s :=
  accept_bind (fun hk => advance_bind (by simp [hk]) (by simpa [hk] using plain) (h true _)) (h false s)

theorem acceptKeyword_bind {keyword : String} {f : Bool → Parser α}
    (h : ∀ c s', Closes shown under (f c) s') : Closes shown under (acceptKeyword keyword >>= f) s := by
  cases hk : s.peek.isKeyword keyword with
  | true =>
    refine congr (q := advance >>= fun _ => f true) ?_ (by rw [acceptKeyword_run, if_pos hk, advance_run])
    exact name_bind (Token.isKeyword_iff.mp hk) (h true _)
  | false => exact (h false s).congr (by simp [acceptKeyword_run, hk])

theorem nestingExceeded_bind {f : α → Parser β} : Closes shown under (nestingExceeded >>= f) s :=
  fail (e := .new _ .nestingExceeded s.peek.line s.peek.position) rfl (by rintro ⟨expected, ⟨⟩⟩)

section
variable (nil : shown [] = [])
include nil

/-- Nothing follows an error. -/
theorem unexpected_bind {expected : List String} {f : α → Parser β} :
    Closes shown under (Parser.unexpected expected >>= f) s := by
  refine fail (e := .unexpected expected s.peek) rfl fun _ => ⟨nil, ?_⟩
  unfold SyntaxError.unexpected
  split <;> rfl

theorem unexpected {expected : List String} : Closes shown under (Parser.unexpected expected : Parser α) s :=
  (unexpected_bind nil (f := Pure.pure)).congr rfl

omit nil in
theorem enter_bind {inner : Option (Parser α)} {f : Parser α → Parser β}
    (h : ∀ q ∈ inner, Closes shown under (f q) s) : Closes shown under (enter inner >>= f) s := by
  cases inner with
  | none => exact nestingExceeded_bind
  | some q => exact (h q rfl).congr rfl

theorem expect_bind {p : Punctuator} {f : Unit → Parser α}
    (h : s.peek.kind = .punctuator p → Closes shown under (advance >>= f) s) :
    Closes shown under (expect p >>= f) s := by
  have same : (expect p >>= f) = accept p >>= fun c => (if c then Pure.pure () else Parser.unexpected _) >>= f :=
    bind_assoc ..
  rw [same]
  exact accept_bind h (unexpected_bind nil)

/-- The bracket that has to close. -/
theorem expect_closing {o : Token} {p : Punctuator} (ho : o.IsClosedBy p) : Closes shown [o] (expect p) s :=
  (expect_bind nil (f := Pure.pure) fun hk => closing hk ho ()).congr (by rw [bind_pure])

theorem expect_plain {p : Punctuator} (plain : p.isBracket = false) {f : Unit → Parser α}
    (h : ∀ s', Closes shown under (f ()) s') : Closes shown under (expect p >>= f) s :=
  expect_bind nil fun hk => advance_bind (by simp [hk]) (by simpa [hk] using plain) (h _)

theorem expectKeyword_bind {keyword : String} {f : Unit → Parser α} (h : ∀ s', Closes shown under (f ()) s') :
    Closes shown under (expectKeyword keyword >>= f) s := by
  have same : (expectKeyword keyword >>= f) =
      acceptKeyword keyword >>= fun c => (if c then Pure.pure () else Parser.unexpected _) >>= f := bind_assoc ..
  rw [same]
  refine acceptKeyword_bind fun c s' => ?_
  cases c with
  | true => exact (h s').congr rfl
  | false => exact unexpected_bind nil

theorem expectName : Closes shown [] Parser.expectName s := by
  apply peek_bind
  cases hn : s.peek.name? with
  | none => exact unexpected nil
  | some name => exact name_bind hn (pure _)

variable {item : Parser α} (h : ∀ s, Closes shown [] item s)
include h

/-- Elements inside the bracket that `close` closes. -/
theorem manyThrough {o : Token} {close : Punctuator} (ho : o.IsClosedBy close) :
    Closes shown [o] (manyThrough close item) s := by
  suffices rounds : ∀ n s, Closes shown [o] (manyThroughWithin close item n) s from (rounds _ s).congr rfl
  intro n
  induction n with
  | zero => exact fun s => expect_bind nil fun hk => closing hk ho _
  | succ n ih =>
    exact fun s => accept_bind (fun hk => closing hk ho _) ((h s).bind fun first s' _ => (ih s').map _)

theorem someThrough {o : Token} {close : Punctuator} (ho : o.IsClosedBy close) :
    Closes shown [o] (someThrough close item) s :=
  (h s).bind fun _ _ _ => (manyThrough nil h ho).map _

theorem optionalBlock {opening close : Punctuator} (ho : opening.closing? = some close)
    (around : ∀ opened o, o.kind = .punctuator opening → shown' (opened ++ [o]) = shown opened) :
    Closes shown' [] (optionalBlock opening close item) s :=
  accept_bind
    (fun hk => opening_bind hk (by simp [ho]) (someThrough nil h ⟨opening, hk, ho⟩) fun opened => around opened _ hk)
    (pure _)

omit nil in
theorem manyAfter {lead : Punctuator} (plain : lead.isBracket = false) : Closes shown [] (manyAfter lead item) s := by
  suffices rounds : ∀ n s, Closes shown [] (manyAfterWithin lead item n) s from (rounds _ s).congr rfl
  intro n
  induction n with
  | zero => exact fun s => pure _
  | succ n ih =>
    refine fun s => accept_plain plain fun c s' => ?_
    cases c with
    | true => exact (h s').bind fun first s'' _ => (ih s'').map _
    | false => exact pure _

end
end Closes
end Parser
end GraphQL
