import Xv6.Library.Run
import Xv6.Shell.Tokens

/-!
# The grammar of the shell

The parser accepts exactly the token sequences of the grammar
`line ::= pipe '&'* [';' line]`, `pipe ::= exec ['|' pipe]`,
`exec ::= '(' line ')' redir* | redir* (word redir*)*`, `redir ::= ('<' | '>' | '>>') word`,
and returns the tree of the derivation. Each parsing function is related to the tokens that are
left at its pointer: what it consumes is a phrase of its nonterminal, and a phrase that stands
before tokens that cannot continue it is consumed.
-/

namespace Xv6

open List (mem_singleton append_assoc length_append length_singleton append_nil length_cons
  cons_append)

/-- `redir*`, with the redirections in order. -/
inductive Redirs : List Token → List Redir → Prop where
  | nil : Redirs [] []
  | cons {op file : Token} {ts : List Token} {redirs : List Redir}
      (operator : op.kind ∈ [TokenKind.less, .greater, .append]) (name : file.kind = .word)
      (rest : Redirs ts redirs) :
      Redirs (op :: file :: ts) (redirOf op.kind file.span :: redirs)

/-- `(word redir*)*`, with the words and the redirections in order. -/
inductive Words : List Token → List Span → List Redir → Prop where
  | nil : Words [] [] []
  | cons {w : Token} {ts ts' : List Token} {argv : List Span} {redirs redirs' : List Redir}
      (word : w.kind = .word) (redirections : Redirs ts redirs) (rest : Words ts' argv redirs') :
      Words (w :: (ts ++ ts')) (w.span :: argv) (redirs ++ redirs')

/-- The nonterminals that are defined by each other. -/
inductive Nonterminal where
  | line | pipe | exec

/-- The tokens are a phrase of the nonterminal and the tree is that of the derivation. -/
inductive Derives : Nonterminal → List Token → Cmd → Prop where
  | simple {ts ts' : List Token} {argv : List Span} {redirs redirs' : List Redir}
      (front : Redirs ts redirs) (words : Words ts' argv redirs')
      (few : argv.length ≤ maxargs - 1) :
      Derives .exec (ts ++ ts') (Cmd.wrap (.exec argv) (redirs ++ redirs'))
  | block {op cl : Token} {ts ts' : List Token} {cmd : Cmd} {redirs : List Redir}
      (opens : op.kind = .lparen) (inside : Derives .line ts cmd) (closes : cl.kind = .rparen)
      (back : Redirs ts' redirs) :
      Derives .exec (op :: (ts ++ cl :: ts')) (cmd.wrap redirs)
  | single {ts : List Token} {cmd : Cmd} (only : Derives .exec ts cmd) : Derives .pipe ts cmd
  | piped {bar : Token} {ts ts' : List Token} {left right : Cmd}
      (first : Derives .exec ts left) (symbol : bar.kind = .bar)
      (second : Derives .pipe ts' right) :
      Derives .pipe (ts ++ bar :: ts') (.pipe left right)
  | last {ts amps : List Token} {cmd : Cmd} (only : Derives .pipe ts cmd)
      (ampersands : ∀ t ∈ amps, t.kind = .amp) :
      Derives .line (ts ++ amps) (Cmd.back^[amps.length] cmd)
  | listed {semi : Token} {ts amps ts' : List Token} {cmd rest : Cmd}
      (first : Derives .pipe ts cmd) (ampersands : ∀ t ∈ amps, t.kind = .amp)
      (symbol : semi.kind = .semi) (second : Derives .line ts' rest) :
      Derives .line (ts ++ (amps ++ semi :: ts')) (.list (Cmd.back^[amps.length] cmd) rest)

def Next (kinds : List TokenKind) (ts : List Token) : Prop :=
  ∀ t rest, ts = t :: rest → t.kind ∈ kinds

def Nonterminal.follow : Nonterminal → List TokenKind
  | .line => [.rparen]
  | .pipe => [.rparen, .amp, .semi]
  | .exec => [.rparen, .amp, .semi, .bar]

def Nonterminal.depth : Nonterminal → Nat → Nat
  | .line, n => 4 * n + 4
  | .pipe, n => 4 * n + 3
  | .exec, n => 4 * n + 2

def kindsOf (toks : List UInt8) : List TokenKind :=
  [TokenKind.bar, .lparen, .rparen, .semi, .amp, .less, .greater, .append].filter
    fun kind => kind.first.any toks.contains

variable {toks : List UInt8} {ts : List Token} {kinds : List TokenKind}

theorem mem_kindsOf {kind : TokenKind} :
    kind ∈ kindsOf toks ↔ kind.first.any toks.contains = true := by
  simp only [kindsOf, List.mem_filter]
  constructor
  · exact fun both => both.2
  · intro starts
    refine ⟨?_, starts⟩
    cases kind <;> first | decide | cases starts

theorem startsWith_iff :
    startsWith toks ts = true ↔ ∃ t rest, ts = t :: rest ∧ t.kind ∈ kindsOf toks := by
  cases ts with
  | nil => simp [startsWith]
  | cons t rest => simp [startsWith, mem_kindsOf]

variable {t : Token}

theorem startsWith_cons (kind : t.kind ∈ kindsOf toks) : startsWith toks (t :: ts) = true :=
  startsWith_iff.mpr ⟨t, ts, rfl, kind⟩

theorem Next.not_startsWith (next : Next kinds ts) (apart : ∀ kind ∈ kinds, kind ∉ kindsOf toks) :
    startsWith toks ts = false := by
  by_contra starts
  obtain ⟨t, rest, shape, kind⟩ := startsWith_iff.mp (Bool.eq_true_of_not_eq_false starts)
  exact apart _ (next t rest shape) kind

theorem Next.mono {kinds kinds' : List TokenKind} (next : Next kinds ts)
    (sub : ∀ kind ∈ kinds, kind ∈ kinds') : Next kinds' ts :=
  fun t rest shape => sub _ (next t rest shape)

theorem next_cons (kind : t.kind ∈ kinds) : Next kinds (t :: ts) := by
  intro first rest shape
  cases shape
  exact kind

theorem next_word (word : t.kind = .word) : Next [.word] (t :: ts) :=
  next_cons (mem_singleton.mpr word)

theorem Redirs.next {ts rest : List Token} {redirs : List Redir} (redirections : Redirs ts redirs)
    (next : Next kinds rest) : Next (.less :: .greater :: .append :: kinds) (ts ++ rest) := by
  cases redirections with
  | nil => exact next.mono fun kind member => by simp [member]
  | cons operator _ _ => exact next_cons (List.mem_append_left kinds operator)

theorem Words.next {ts rest : List Token} {argv : List Span} {redirs : List Redir}
    (words : Words ts argv redirs) (next : Next kinds rest) :
    Next (.word :: kinds) (ts ++ rest) := by
  cases words with
  | nil => exact next.mono fun kind member => List.mem_cons_of_mem _ member
  | cons word _ _ => exact next_cons (by simp [word])

theorem next_amps {amps rest : List Token} (ampersands : ∀ t ∈ amps, t.kind = .amp)
    (next : Next kinds rest) : Next (.amp :: kinds) (amps ++ rest) := by
  cases amps with
  | nil => exact next.mono fun kind member => List.mem_cons_of_mem _ member
  | cons t amps => exact next_cons (by simp [ampersands t List.mem_cons_self])

/-- A call returns what it should, or it reports an error if it had enough turns. -/
def Reads {α : Type} (enough : Prop) (result : Except Fault α) (good : α → Prop) : Prop :=
  match result with
  | .ok value => good value
  | .error fault => enough → ∃ message, fault = .panic message

section Reads

variable {α β : Type} {enough enough' : Prop} {result : Except Fault α} {good good' : α → Prop}

theorem reads_panic (message : String) : Reads enough (.error (.panic message)) good :=
  fun _ => ⟨message, rfl⟩

theorem reads_ok {value : α} (holds : good value) : Reads enough (.ok value) good := holds

theorem Reads.ok {value : α} (reads : Reads enough result good) (returned : result = .ok value) :
    good value := by
  rw [returned] at reads
  exact reads

theorem Reads.imp (reads : Reads enough' result good') (fewer : enough → enough')
    (better : ∀ value, good' value → good value) : Reads enough result good := by
  cases result with
  | error fault => exact fun some => reads (fewer some)
  | ok value => exact better value reads

theorem Reads.bind {next : α → Except Fault β} {last : β → Prop}
    (reads : Reads enough' result good) (fewer : enough → enough')
    (continues : ∀ value, good value → Reads enough (next value) last) :
    Reads enough (result >>= next) last := by
  cases result with
  | error fault => exact fun some => reads (fewer some)
  | ok value => exact continues value reads

end Reads

namespace CString

variable (s : CString) {p p' : Nat}

theorem peek_redirs : s.peek p [0x3C, 0x3E] = (startsWith [0x3C, 0x3E] (s.tokens p), s.skip p) :=
  s.peek_eq (by simp [symbols])

theorem peek_ends : s.peek p [0x7C, 0x29, 0x26, 0x3B] =
    (startsWith [0x7C, 0x29, 0x26, 0x3B] (s.tokens p), s.skip p) :=
  s.peek_eq (by simp [symbols])

theorem peek_amp : s.peek p [0x26] = (startsWith [0x26] (s.tokens p), s.skip p) :=
  s.peek_eq (by simp [symbols])

theorem peek_semi : s.peek p [0x3B] = (startsWith [0x3B] (s.tokens p), s.skip p) :=
  s.peek_eq (by simp [symbols])

theorem peek_bar : s.peek p [0x7C] = (startsWith [0x7C] (s.tokens p), s.skip p) :=
  s.peek_eq (by simp [symbols])

theorem peek_lparen : s.peek p [0x28] = (startsWith [0x28] (s.tokens p), s.skip p) :=
  s.peek_eq (by simp [symbols])

theorem peek_rparen : s.peek p [0x29] = (startsWith [0x29] (s.tokens p), s.skip p) :=
  s.peek_eq (by simp [symbols])

def Consumes (p p' : Nat) (ts : List Token) : Prop :=
  s.tokens p = ts ++ s.tokens p' ∧ (p ≤ s.chars.length → p' ≤ s.chars.length)

theorem consumes_skip : s.Consumes p (s.skip p) [] :=
  ⟨s.tokens_skip.symm, s.skip_le⟩

theorem consumes_gettoken {t : Token} {ts : List Token} (shape : s.tokens p = t :: ts) :
    s.Consumes p (s.gettoken p).2 [t] := by
  obtain ⟨-, -, rest, inside⟩ := s.gettoken_of_cons shape
  exact ⟨by rw [rest, shape]; rfl, fun _ => inside⟩

theorem Consumes.trans {s : CString} {p p' p'' : Nat} {ts ts' : List Token}
    (first : s.Consumes p p' ts) (second : s.Consumes p' p'' ts') :
    s.Consumes p p'' (ts ++ ts') :=
  ⟨by rw [first.1, second.1, append_assoc], fun inside => second.2 (first.2 inside)⟩

theorem Consumes.length {s : CString} {p p' : Nat} {ts : List Token}
    (consumes : s.Consumes p p' ts) :
    (s.tokens p).length = ts.length + (s.tokens p').length := by
  rw [consumes.1, length_append]

theorem tokens_of_gettoken (some : (s.gettoken p).1.kind ≠ .eof) :
    s.Consumes p (s.gettoken p).2 [(s.gettoken p).1] :=
  s.consumes_gettoken (s.tokens_cons some)

theorem consumes_eof (eof : (s.gettoken p).1.kind = .eof) :
    s.Consumes p (s.gettoken p).2 [] := by
  have zero := s.gettoken_eof_iff.mp eof
  have next : (s.gettoken p).2 = s.skip p := by
    show s.skip (s.tokenAt (s.skip p)).span.stop = s.skip p
    rw [s.tokenAt_eof zero]
    exact s.skip_skip
  rw [next]
  exact s.consumes_skip

theorem consumes_symbol {toks : List UInt8} (starts : startsWith toks (s.tokens p) = true) :
    (s.gettoken (s.skip p)).1.kind ∈ kindsOf toks ∧
      s.Consumes p (s.gettoken (s.skip p)).2 [(s.gettoken (s.skip p)).1] := by
  obtain ⟨t, ts, shape, kind⟩ := startsWith_iff.mp starts
  have shape : s.tokens (s.skip p) = t :: ts := s.tokens_skip.trans shape
  have isFirst := (s.gettoken_of_cons shape).1
  rw [isFirst]
  exact ⟨kind, s.consumes_skip.trans (s.consumes_gettoken shape)⟩

theorem parseredirs_reads (turns : Nat) : Reads ((s.tokens p).length < turns)
    (s.parseredirs turns p) fun result => ∃ ts, s.Consumes p result.2 ts ∧ Redirs ts result.1 := by
  induction turns generalizing p with
  | zero => exact fun enough => absurd enough (Nat.not_lt_zero _)
  | succ turns ih =>
    simp only [parseredirs, peek_redirs]
    split
    case isFalse => exact reads_ok ⟨[], s.consumes_skip, .nil⟩
    case isTrue starts =>
      obtain ⟨operator, consumesOp⟩ := s.consumes_symbol starts
      split
      case isTrue => exact reads_panic _
      case isFalse word =>
        have word := not_not.mp word
        have consumesFile := s.tokens_of_gettoken (p := (s.gettoken (s.skip p)).2)
          (by rw [word]; nofun)
        have consumesBoth := consumesOp.trans consumesFile
        refine ih.bind (fun enough => ?_) fun result ⟨ts, consumes, rest⟩ => reads_ok
          ⟨_, consumesBoth.trans consumes, .cons operator word rest⟩
        have fewer := consumesBoth.length
        simp only [length_append, length_singleton] at fewer
        omega

theorem parsewords_reads (turns : Nat) {argc : Nat} (room : argc < maxargs) :
    Reads ((s.tokens p).length < turns) (s.parsewords turns argc p) fun result =>
      ∃ ts, s.Consumes p result.2 ts ∧ Words ts result.1.1 result.1.2 ∧
        argc + result.1.1.length < maxargs := by
  induction turns generalizing argc p with
  | zero => exact fun enough => absurd enough (Nat.not_lt_zero _)
  | succ turns ih =>
    simp only [parsewords, peek_ends]
    split
    case isTrue => exact reads_ok ⟨[], s.consumes_skip, .nil, room⟩
    case isFalse =>
      split
      case isTrue eof =>
        exact reads_ok ⟨[], s.consumes_skip.trans (s.consumes_eof eof), .nil, room⟩
      case isFalse some =>
        split
        case isTrue => exact reads_panic _
        case isFalse word =>
          have word := not_not.mp word
          split
          case isTrue => exact reads_panic _
          case isFalse few =>
            have consumesWord := s.consumes_skip.trans (s.tokens_of_gettoken some)
            refine (s.parseredirs_reads _).bind (fun _ => s.tokens_lt_turns)
              fun result ⟨ts, consumesRedirs, redirections⟩ => ?_
            have consumesBoth := consumesWord.trans consumesRedirs
            refine (ih (by omega)).bind (fun enough => ?_)
              fun result ⟨ts', consumesRest, rest, fits⟩ => reads_ok
                ⟨(s.gettoken (s.skip p)).1 :: (ts ++ ts'),
                  consumesWord.trans (consumesRedirs.trans consumesRest),
                  .cons word redirections rest, ?_⟩
            · have fewer := consumesBoth.length
              simp only [length_append, length_singleton, List.length_nil] at fewer
              omega
            · show argc + (result.1.1.length + 1) < maxargs
              omega

variable {cmd : Cmd} {redirs : List Redir}

theorem parsebacks_reads (turns : Nat) : Reads ((s.tokens p).length < turns)
    (s.parsebacks turns cmd p) fun result => ∃ amps, s.Consumes p result.2 amps ∧
      (∀ t ∈ amps, t.kind = .amp) ∧ result.1 = Cmd.back^[amps.length] cmd := by
  induction turns generalizing p cmd with
  | zero => exact fun enough => absurd enough (Nat.not_lt_zero _)
  | succ turns ih =>
    simp only [parsebacks, peek_amp]
    split
    case isFalse => exact reads_ok ⟨[], s.consumes_skip, by nofun, rfl⟩
    case isTrue starts =>
      obtain ⟨symbol, consumes⟩ := s.consumes_symbol starts
      refine ih.imp (fun enough => ?_) fun result ⟨amps, rest, ampersands, same⟩ =>
        ⟨_, consumes.trans rest, ?_, same⟩
      · have fewer := consumes.length
        rw [length_singleton] at fewer
        omega
      · exact List.forall_mem_cons.mpr ⟨mem_singleton.mp symbol, ampersands⟩

def Phrase (nonterminal : Nonterminal) (p : Nat) (result : Cmd × Nat) : Prop :=
  ∃ ts, s.Consumes p result.2 ts ∧ Derives nonterminal ts result.1

theorem parse_reads (depth : Nat) : ∀ {p : Nat},
    Reads (4 * (s.tokens p).length + 4 ≤ depth) (s.parseline depth p) (s.Phrase .line p) ∧
    Reads (4 * (s.tokens p).length + 3 ≤ depth) (s.parsepipe depth p) (s.Phrase .pipe p) ∧
    Reads (4 * (s.tokens p).length + 2 ≤ depth) (s.parseexec depth p) (s.Phrase .exec p) ∧
    Reads (4 * (s.tokens p).length + 1 ≤ depth) (s.parseblock depth p) (s.Phrase .exec p) := by
  induction depth with
  | zero =>
    intro p
    simp only [parseline, parsepipe, parseexec, parseblock]
    refine ⟨fun deep => ?_, fun deep => ?_, fun deep => ?_, fun deep => ?_⟩ <;> omega
  | succ depth ih =>
    intro p
    refine ⟨?_, ?_, ?_, ?_⟩
    · simp only [parseline, peek_semi]
      refine ih.2.1.bind (by omega) ?_
      rintro ⟨first, q⟩ ⟨ts, consumesPipe, derived⟩
      refine (s.parsebacks_reads _).bind (fun _ => s.tokens_lt_turns) ?_
      rintro ⟨marked, q'⟩ ⟨amps, consumesAmps, ampersands, same⟩
      obtain rfl : marked = _ := same
      have consumesBoth := consumesPipe.trans consumesAmps
      simp only
      split
      case isTrue starts =>
        obtain ⟨symbol, consumesSemi⟩ := s.consumes_symbol starts
        refine ih.1.bind (fun deep => ?_) ?_
        · have fewer := (consumesBoth.trans consumesSemi).length
          simp only [length_append, length_singleton] at fewer
          omega
        · rintro result ⟨ts', consumesRest, derivedRest⟩
          exact reads_ok
            ⟨_, consumesPipe.trans (consumesAmps.trans (consumesSemi.trans consumesRest)),
              .listed derived ampersands (mem_singleton.mp symbol) derivedRest⟩
      case isFalse =>
        refine reads_ok ⟨_, consumesBoth.trans s.consumes_skip, ?_⟩
        rw [append_nil]
        exact .last derived ampersands
    · simp only [parsepipe, peek_bar]
      refine ih.2.2.1.bind (by omega) ?_
      rintro ⟨first, q⟩ ⟨ts, consumesExec, derived⟩
      simp only
      split
      case isTrue starts =>
        obtain ⟨symbol, consumesBar⟩ := s.consumes_symbol starts
        refine ih.2.1.bind (fun deep => ?_) ?_
        · have fewer := (consumesExec.trans consumesBar).length
          simp only [length_append, length_singleton] at fewer
          omega
        · rintro result ⟨ts', consumesRest, derivedRest⟩
          exact reads_ok ⟨_, consumesExec.trans (consumesBar.trans consumesRest),
            .piped derived (mem_singleton.mp symbol) derivedRest⟩
      case isFalse =>
        refine reads_ok ⟨_, consumesExec.trans s.consumes_skip, ?_⟩
        rw [append_nil]
        exact .single derived
    · simp only [parseexec, peek_lparen]
      split
      case isTrue =>
        refine ih.2.2.2.imp (fun deep => ?_) ?_
        · rw [tokens_skip]
          omega
        · rintro result ⟨ts, consumes, derived⟩
          exact ⟨ts, s.consumes_skip.trans consumes, derived⟩
      case isFalse =>
        refine (s.parseredirs_reads _).bind (fun _ => s.tokens_lt_turns) ?_
        rintro ⟨front, q⟩ ⟨ts, consumesFront, redirs⟩
        refine (s.parsewords_reads _ (by decide)).bind (fun _ => s.tokens_lt_turns) ?_
        rintro ⟨⟨argv, back⟩, q'⟩ ⟨ts', consumesWords, words, few⟩
        refine reads_ok ⟨ts ++ ts', s.consumes_skip.trans (consumesFront.trans consumesWords),
          .simple redirs words ?_⟩
        show argv.length ≤ maxargs - 1
        dsimp only at few
        omega
    · simp only [parseblock, peek_lparen, peek_rparen]
      split
      case isFalse => exact reads_panic _
      case isTrue starts =>
        obtain ⟨opens, consumesOpen⟩ := s.consumes_symbol starts
        refine ih.1.bind (fun deep => ?_) ?_
        · have fewer := consumesOpen.length
          rw [length_singleton] at fewer
          omega
        rintro ⟨inside, q⟩ ⟨ts, consumesLine, derived⟩
        simp only
        split
        case isFalse => exact reads_panic _
        case isTrue ends =>
          obtain ⟨closes, consumesClose⟩ := s.consumes_symbol ends
          refine (s.parseredirs_reads _).bind (fun _ => s.tokens_lt_turns) ?_
          rintro result ⟨ts', consumesRedirs, back⟩
          exact reads_ok
            ⟨_, consumesOpen.trans (consumesLine.trans (consumesClose.trans consumesRedirs)),
              .block (mem_singleton.mp opens) derived (mem_singleton.mp closes) back⟩

theorem lt_turns {ts rest : List Token} (shape : s.tokens p = ts ++ rest) :
    ts.length < s.turns p := by
  have bound := s.tokens_lt_turns (p := p)
  rw [shape, length_append] at bound
  omega

theorem gettoken_skip {t : Token} {ts : List Token} (shape : s.tokens p = t :: ts) :
    (s.gettoken (s.skip p)).1 = t ∧ s.tokens (s.gettoken (s.skip p)).2 = ts := by
  obtain ⟨isFirst, -, rest, -⟩ := s.gettoken_of_cons (s.tokens_skip.trans shape)
  exact ⟨isFirst, rest⟩

theorem parseredirs_complete {turns : Nat} {ts rest : List Token} (redirections : Redirs ts redirs)
    (shape : s.tokens p = ts ++ rest) (ends : startsWith [0x3C, 0x3E] rest = false)
    (enough : ts.length < turns) :
    ∃ p', s.parseredirs turns p = .ok (redirs, p') ∧ s.tokens p' = rest := by
  induction redirections generalizing p turns with
  | nil =>
    cases turns with
    | zero => omega
    | succ turns =>
      have none : startsWith [0x3C, 0x3E] (s.tokens p) = false := by rw [shape]; exact ends
      refine ⟨s.skip p, ?_, s.tokens_skip.trans shape⟩
      simp [parseredirs, peek_redirs, none]
  | @cons op file ts redirs operator name _ ih =>
    cases turns with
    | zero => omega
    | succ turns =>
      have starts : startsWith [0x3C, 0x3E] (s.tokens p) = true := by
        rw [shape]
        exact startsWith_cons operator
      obtain ⟨isOp, afterOp⟩ := s.gettoken_skip shape
      obtain ⟨isFile, -, afterFile, -⟩ := s.gettoken_of_cons afterOp
      have fits : ts.length < turns := by
        simp only [length_cons] at enough
        omega
      obtain ⟨p', recursive, left⟩ := ih afterFile fits
      refine ⟨p', ?_, left⟩
      simp [parseredirs, peek_redirs, starts, isOp, isFile, name, recursive, bind, Except.bind,
        pure, Except.pure]

theorem parsewords_complete {turns argc : Nat} {ts rest : List Token} {argv : List Span}
    (words : Words ts argv redirs) (shape : s.tokens p = ts ++ rest)
    (next : Next Nonterminal.exec.follow rest) (few : argc + argv.length < maxargs)
    (enough : ts.length < turns) :
    ∃ p', s.parsewords turns argc p = .ok ((argv, redirs), p') ∧ s.tokens p' = rest := by
  induction words generalizing p turns argc with
  | nil =>
    cases turns with
    | zero => omega
    | succ turns =>
      cases rest with
      | nil =>
        have none : startsWith [0x7C, 0x29, 0x26, 0x3B] (s.tokens p) = false := by
          rw [shape]
          rfl
        have eof := s.gettoken_of_nil (s.tokens_skip.trans shape)
        refine ⟨(s.gettoken (s.skip p)).2, ?_, ?_⟩
        · simp [parsewords, peek_ends, none, eof]
        · have consumes := (s.consumes_skip.trans (s.consumes_eof eof)).1
          rw [shape] at consumes
          exact consumes.symm
      | cons t rest =>
        have ends : startsWith [0x7C, 0x29, 0x26, 0x3B] (s.tokens p) = true := by
          rw [shape]
          refine startsWith_cons ?_
          have kind := next t rest rfl
          revert kind
          cases t.kind <;> decide
        refine ⟨s.skip p, ?_, s.tokens_skip.trans shape⟩
        simp [parsewords, peek_ends, ends]
  | @cons w ts ts' argv redirs redirs' word redirections words ih =>
    cases turns with
    | zero => omega
    | succ turns =>
      have goes : startsWith [0x7C, 0x29, 0x26, 0x3B] (s.tokens p) = false := by
        rw [shape]
        exact (next_word word).not_startsWith (by decide)
      obtain ⟨isWord, after⟩ := s.gettoken_skip shape
      have after : s.tokens (s.gettoken (s.skip p)).2 = ts ++ (ts' ++ rest) :=
        after.trans (append_assoc ts ts' rest)
      simp only [length_cons, length_append] at few enough
      obtain ⟨q, first, left⟩ := s.parseredirs_complete redirections after
        ((words.next next).not_startsWith (by decide)) (s.lt_turns after)
      have fewer : argc + 1 + argv.length < maxargs := by omega
      have fits : ts'.length < turns := by omega
      obtain ⟨p', recursive, done⟩ := ih left fewer fits
      have room : ¬ maxargs ≤ argc + 1 := by omega
      refine ⟨p', ?_, done⟩
      simp [parsewords, peek_ends, goes, isWord, word, room, first, recursive, bind, Except.bind,
        pure, Except.pure]

theorem parsebacks_complete {turns : Nat} {amps rest : List Token} (cmd : Cmd)
    (ampersands : ∀ t ∈ amps, t.kind = .amp) (shape : s.tokens p = amps ++ rest)
    (ends : startsWith [0x26] rest = false) (enough : amps.length < turns) :
    ∃ p', s.parsebacks turns cmd p = .ok (Cmd.back^[amps.length] cmd, p') ∧ s.tokens p' = rest := by
  induction amps generalizing p turns cmd with
  | nil =>
    cases turns with
    | zero => omega
    | succ turns =>
      have none : startsWith [0x26] (s.tokens p) = false := by rw [shape]; exact ends
      refine ⟨s.skip p, ?_, s.tokens_skip.trans shape⟩
      simp [parsebacks, peek_amp, none]
  | cons t amps ih =>
    cases turns with
    | zero => omega
    | succ turns =>
      have starts : startsWith [0x26] (s.tokens p) = true := by
        rw [shape]
        exact startsWith_cons (mem_singleton.mpr (ampersands t List.mem_cons_self))
      obtain ⟨-, after⟩ := s.gettoken_skip shape
      have fits : amps.length < turns := by
        rw [length_cons] at enough
        omega
      obtain ⟨p', recursive, left⟩ :=
        ih (.back cmd) (fun t member => ampersands t (List.mem_cons_of_mem _ member)) after fits
      refine ⟨p', ?_, left⟩
      simp only [parsebacks, peek_amp, starts, recursive, if_true, length_cons,
        Function.iterate_succ_apply]

def parse : Nonterminal → Nat → Nat → Except Fault (Cmd × Nat)
  | .line => s.parseline
  | .pipe => s.parsepipe
  | .exec => s.parseexec

theorem parse_complete {nonterminal : Nonterminal} {ts : List Token}
    (derived : Derives nonterminal ts cmd) : ∀ (p depth : Nat) (rest : List Token),
    s.tokens p = ts ++ rest → Next nonterminal.follow rest →
    nonterminal.depth ts.length ≤ depth →
    ∃ p', s.parse nonterminal depth p = .ok (cmd, p') ∧ s.tokens p' = rest := by
  induction derived with
  | @simple ts ts' argv redirs redirs' front words few =>
    intro p depth rest shape next deep
    rw [append_assoc] at shape
    cases depth with
    | zero => exact absurd deep (by simp [Nonterminal.depth])
    | succ depth =>
      have plain : startsWith [0x28] (s.tokens p) = false := by
        rw [shape]
        exact (front.next (words.next next)).not_startsWith (by decide)
      have after : s.tokens (s.skip p) = ts ++ (ts' ++ rest) := s.tokens_skip.trans shape
      obtain ⟨q, one, left⟩ := s.parseredirs_complete front after
        ((words.next next).not_startsWith (by decide)) (s.lt_turns after)
      have room : 0 + argv.length < maxargs := by
        have some : 0 < maxargs := by decide
        omega
      obtain ⟨p', two, done⟩ := s.parsewords_complete words left next room (s.lt_turns left)
      refine ⟨p', ?_, done⟩
      simp [parse, parseexec, peek_lparen, plain, one, two, bind, Except.bind, pure, Except.pure]
  | @block op cl ts ts' cmd redirs opens _ closes back ih =>
    intro p depth rest shape next deep
    have shape : s.tokens (s.skip p) = op :: (ts ++ (cl :: (ts' ++ rest))) := by
      rw [tokens_skip, shape, cons_append, append_assoc, cons_append]
    simp only [Nonterminal.depth, length_cons, length_append] at deep
    obtain ⟨depth, rfl⟩ : ∃ d, depth = d + 2 := ⟨depth - 2, by omega⟩
    have starts : startsWith [0x28] (s.tokens p) = true := by
      rw [← tokens_skip, shape]
      exact startsWith_cons (mem_singleton.mpr opens)
    obtain ⟨-, -, after, -⟩ := s.gettoken_of_cons shape
    obtain ⟨q, one, left⟩ := ih _ depth _ after (next_cons (mem_singleton.mpr closes))
      (by simp only [Nonterminal.depth]; omega)
    have ends : startsWith [0x29] (s.tokens q) = true := by
      rw [left]
      exact startsWith_cons (mem_singleton.mpr closes)
    obtain ⟨-, behind⟩ := s.gettoken_skip left
    obtain ⟨p', two, done⟩ := s.parseredirs_complete back behind
      (next.not_startsWith (by decide)) (s.lt_turns behind)
    refine ⟨p', ?_, done⟩
    have one : s.parseline depth (s.gettoken (s.skip p)).2 = .ok (cmd, q) := one
    simp [parse, parseexec, parseblock, peek_lparen, peek_rparen, tokens_skip, skip_skip, starts,
      one, ends, two, bind, Except.bind, pure, Except.pure]
  | @single ts cmd only ih =>
    intro p depth rest shape next deep
    simp only [Nonterminal.depth] at deep
    obtain ⟨depth, rfl⟩ : ∃ d, depth = d + 1 := ⟨depth - 1, by omega⟩
    obtain ⟨q, one, left⟩ := ih p depth rest shape (next.mono (by decide))
      (by simp only [Nonterminal.depth]; omega)
    have ends : startsWith [0x7C] (s.tokens q) = false := by
      rw [left]
      exact next.not_startsWith (by decide)
    refine ⟨s.skip q, ?_, s.tokens_skip.trans left⟩
    have one : s.parseexec depth p = .ok (cmd, q) := one
    simp [parse, parsepipe, peek_bar, one, ends, bind, Except.bind, pure, Except.pure]
  | @piped bar ts ts' left right first symbol second ihFirst ihSecond =>
    intro p depth rest shape next deep
    rw [append_assoc, cons_append] at shape
    simp only [Nonterminal.depth, length_cons, length_append] at deep
    obtain ⟨depth, rfl⟩ : ∃ d, depth = d + 1 := ⟨depth - 1, by omega⟩
    obtain ⟨q, one, after⟩ := ihFirst p depth _ shape (next_cons (by rw [symbol]; decide))
      (by simp only [Nonterminal.depth]; omega)
    have starts : startsWith [0x7C] (s.tokens q) = true := by
      rw [after]
      exact startsWith_cons (mem_singleton.mpr symbol)
    obtain ⟨-, behind⟩ := s.gettoken_skip after
    obtain ⟨p', two, done⟩ := ihSecond _ depth rest behind next
      (by simp only [Nonterminal.depth]; omega)
    refine ⟨p', ?_, done⟩
    have one : s.parseexec depth p = .ok (left, q) := one
    have two : s.parsepipe depth (s.gettoken (s.skip q)).2 = .ok (right, p') := two
    simp [parse, parsepipe, peek_bar, one, starts, two, bind, Except.bind, pure, Except.pure]
  | @last ts amps cmd only ampersands ih =>
    intro p depth rest shape next deep
    rw [append_assoc] at shape
    simp only [Nonterminal.depth, length_append] at deep
    obtain ⟨depth, rfl⟩ : ∃ d, depth = d + 1 := ⟨depth - 1, by omega⟩
    obtain ⟨q, one, after⟩ := ih p depth _ shape ((next_amps ampersands next).mono (by decide))
      (by simp only [Nonterminal.depth]; omega)
    obtain ⟨q', two, left⟩ := s.parsebacks_complete cmd ampersands after
      (next.not_startsWith (by decide)) (s.lt_turns after)
    have ends : startsWith [0x3B] (s.tokens q') = false := by
      rw [left]
      exact next.not_startsWith (by decide)
    refine ⟨s.skip q', ?_, s.tokens_skip.trans left⟩
    have one : s.parsepipe depth p = .ok (cmd, q) := one
    simp [parse, parseline, peek_semi, one, two, ends, bind, Except.bind, pure, Except.pure]
  | @listed semi ts amps ts' cmd after' first ampersands symbol second ihFirst ihSecond =>
    intro p depth rest shape next deep
    rw [append_assoc, append_assoc, cons_append] at shape
    simp only [Nonterminal.depth, length_cons, length_append] at deep
    obtain ⟨depth, rfl⟩ : ∃ d, depth = d + 1 := ⟨depth - 1, by omega⟩
    have ends : Next [TokenKind.semi] (semi :: (ts' ++ rest)) :=
      next_cons (mem_singleton.mpr symbol)
    obtain ⟨q, one, after⟩ := ihFirst p depth _ shape ((next_amps ampersands ends).mono (by decide))
      (by simp only [Nonterminal.depth]; omega)
    obtain ⟨q', two, left⟩ := s.parsebacks_complete cmd ampersands after
      (ends.not_startsWith (by decide)) (s.lt_turns after)
    have starts : startsWith [0x3B] (s.tokens q') = true := by
      rw [left]
      exact startsWith_cons (mem_singleton.mpr symbol)
    obtain ⟨-, behind⟩ := s.gettoken_skip left
    obtain ⟨p', three, done⟩ := ihSecond _ depth rest behind next
      (by simp only [Nonterminal.depth]; omega)
    refine ⟨p', ?_, done⟩
    have one : s.parsepipe depth p = .ok (cmd, q) := one
    have three : s.parseline depth (s.gettoken (s.skip q')).2 = .ok (after', p') := three
    simp [parse, parseline, peek_semi, one, two, starts, three, bind, Except.bind, pure,
      Except.pure]

theorem parsecmd_ok_iff : s.parsecmd = .ok cmd ↔ Derives .line (s.tokens 0) cmd := by
  constructor
  · intro parsed
    unfold parsecmd at parsed
    obtain ⟨⟨tree, p⟩, one, parsed⟩ := Transition.bind_ok.mp parsed
    obtain ⟨ts, consumes, derived⟩ := (s.parse_reads _).1.ok one
    have parsed : (if s.skip p ≠ s.chars.length then (.error (.panic "syntax") : Except Fault Cmd)
        else .ok tree) = .ok cmd := parsed
    by_cases ends : s.skip p = s.chars.length
    · rw [if_neg (not_not.mpr ends)] at parsed
      cases parsed
      have none := (s.tokens_nil_iff (consumes.2 (Nat.zero_le _))).mpr ends
      have whole := consumes.1
      rw [none, append_nil] at whole
      rw [whole]
      exact derived
    · rw [if_pos ends] at parsed
      cases parsed
  · intro derived
    have deep : Nonterminal.line.depth (s.tokens 0).length ≤ 4 * s.chars.length + 4 := by
      have bound := s.tokens_length (p := 0)
      simp only [Nonterminal.depth]
      omega
    obtain ⟨p, one, left⟩ :=
      s.parse_complete derived 0 _ [] (append_nil _).symm (by nofun) deep
    have one : s.parseline (4 * s.chars.length + 4) 0 = .ok (cmd, p) := one
    obtain ⟨ts, consumes, -⟩ := (s.parse_reads _).1.ok one
    have ends := (s.tokens_nil_iff (consumes.2 (Nat.zero_le _))).mp left
    simp [parsecmd, peek, one, ends, bind, Except.bind, pure, Except.pure]

theorem parsecmd_reads : Reads True s.parsecmd fun _ => True := by
  have bound := s.tokens_length (p := 0)
  refine (s.parse_reads _).1.bind (by omega) fun ⟨cmd, p⟩ _ => ?_
  simp only
  split
  · exact reads_panic _
  · exact reads_ok trivial

/-- The parser accepts exactly the lines of the grammar and returns the one tree of the
derivation, whose words and file names are the spans of tokens. Anything else is reported. The
tokens leave out nothing but blanks, a word is a longest run of ordinary characters, and any other
token has the characters of its kind, where two of `'>'` are one token. -/
theorem parsecmd_accepts_grammar :
    (∀ cmd, s.parsecmd = .ok cmd ↔ Derives .line (s.tokens 0) cmd) ∧
    (∀ cmd cmd', Derives .line (s.tokens 0) cmd → Derives .line (s.tokens 0) cmd' → cmd = cmd') ∧
    ((∀ cmd, ¬ Derives .line (s.tokens 0) cmd) → ∃ message, s.parsecmd = .error (.panic message)) ∧
    (∀ i, i < s.chars.length → whitespace.contains (s.char i) = false →
      ∃ t ∈ s.tokens 0, t.span.start ≤ i ∧ i < t.span.stop) ∧
    (∀ t ∈ s.tokens 0, t.kind = .word →
      t.span.start < t.span.stop ∧ t.span.stop ≤ s.chars.length ∧
      (∀ i, t.span.start ≤ i → i < t.span.stop → ordinary (s.char i) = true) ∧
      (t.span.stop < s.chars.length → ordinary (s.char t.span.stop) = false)) ∧
    (∀ t ∈ s.tokens 0, t.kind ≠ .word →
      (List.range (t.span.stop - t.span.start)).map (fun i => s.char (t.span.start + i)) =
        t.kind.spelling ∧ (t.kind = .greater → s.char t.span.stop ≠ 0x3E)) := by
  refine ⟨fun _ => s.parsecmd_ok_iff, fun cmd cmd' derived derived' => ?_, fun underivable => ?_,
    fun i inside full => s.tokens_cover (Nat.zero_le _) inside full,
    fun t member word => s.tokens_word member word,
    fun t member symbol => s.tokens_symbol member symbol⟩
  · have same := (s.parsecmd_ok_iff.mpr derived).symm.trans (s.parsecmd_ok_iff.mpr derived')
    injection same
  · have reads := s.parsecmd_reads
    cases result : s.parsecmd with
    | error fault =>
      rw [result] at reads
      obtain ⟨message, isPanic⟩ := reads trivial
      exact ⟨message, by rw [isPanic]⟩
    | ok cmd => exact absurd (s.parsecmd_ok_iff.mp result) (underivable cmd)

def appendLine : CString := ⟨[0x61, 0x3E, 0x3E, 0x62], by decide⟩

/-- It is a line of the grammar: a program with its output redirected to a file. -/
theorem parsecmd_accepts_grammar_append :
    Derives .line (appendLine.tokens 0) (.redir (.exec [⟨0, 1⟩]) ⟨⟨3, 4⟩, 0x201, 1⟩) := by
  refine (appendLine.parsecmd_accepts_grammar.1 _).mp ?_
  decide +kernel

end CString

end Xv6
