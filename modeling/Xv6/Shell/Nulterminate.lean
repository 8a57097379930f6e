import Xv6.Shell.Grammar

/-!
# Terminating the words of a command

`nulterminate` walks over the tree and stores a zero behind each word and each file name. They are
all parts of the one line, so a zero may replace an operator, but none falls inside a word: words
are longest runs of ordinary characters, and what stands behind one is not ordinary.
-/

namespace Xv6

structure Line where
  bytes : List UInt8
  stored : List Nat

namespace Line

def store (line : Line) (p : Nat) : Line where
  bytes := line.bytes.set p 0
  stored := p :: line.stored

def string (line : Line) (p : Nat) : List UInt8 := (line.bytes.drop p).takeWhile (· != 0)

end Line

def nulterminate : Cmd → Line → Line
  | .exec argv, line => argv.foldl (fun line arg => line.store arg.stop) line
  | .redir cmd r, line => (nulterminate cmd line).store r.file.stop
  | .pipe left right, line => nulterminate right (nulterminate left line)
  | .list left right, line => nulterminate right (nulterminate left line)
  | .back cmd, line => nulterminate cmd line

def Cmd.words : Cmd → List Span
  | .exec argv => argv
  | .redir cmd r => cmd.words ++ [r.file]
  | .pipe left right => left.words ++ right.words
  | .list left right => left.words ++ right.words
  | .back cmd => cmd.words

theorem nulterminate_eq (cmd : Cmd) (line : Line) :
    nulterminate cmd line = (cmd.words.map Span.stop).foldl Line.store line := by
  induction cmd generalizing line with
  | exec argv => rw [nulterminate, Cmd.words, List.foldl_map]
  | redir cmd r ih => simp only [nulterminate, Cmd.words, ih, List.map_append, List.foldl_append,
      List.map_cons, List.map_nil, List.foldl_cons, List.foldl_nil]
  | pipe left right ihLeft ihRight | list left right ihLeft ihRight =>
    rw [nulterminate, ihLeft, ihRight, Cmd.words, List.map_append, List.foldl_append]
  | back cmd ih => rw [nulterminate, ih, Cmd.words]

namespace Line

variable (line : Line) (ps : List Nat)

theorem mem_stored_foldl {p : Nat} :
    p ∈ (ps.foldl store line).stored ↔ p ∈ ps ∨ p ∈ line.stored := by
  induction ps generalizing line with
  | nil => simp
  | cons q ps ih => simp [ih, store, or_left_comm, or_assoc]

theorem getElem?_foldl_of_notMem {p : Nat} (other : p ∉ ps) :
    (ps.foldl store line).bytes[p]? = line.bytes[p]? := by
  induction ps generalizing line with
  | nil => rfl
  | cons q ps ih =>
    rw [List.mem_cons, not_or] at other
    rw [List.foldl_cons, ih _ other.2, store, List.getElem?_set_ne (Ne.symm other.1)]

theorem getElem?_foldl_of_mem {p : Nat} (member : p ∈ ps) (inside : p < line.bytes.length) :
    (ps.foldl store line).bytes[p]? = some 0 := by
  induction ps generalizing line with
  | nil => cases member
  | cons q ps ih =>
    rw [List.foldl_cons]
    by_cases later : p ∈ ps
    · exact ih _ later (by rw [store, List.length_set]; exact inside)
    · obtain rfl : p = q := (List.mem_cons.mp member).resolve_right later
      rw [getElem?_foldl_of_notMem _ _ later, store, List.getElem?_set_self inside]

end Line

theorem Cmd.words_wrap (cmd : Cmd) (redirs : List Redir) :
    (cmd.wrap redirs).words = cmd.words ++ redirs.map Redir.file := by
  induction redirs generalizing cmd with
  | nil => simp [wrap]
  | cons r redirs ih =>
    have first : cmd.wrap (r :: redirs) = (cmd.redir r).wrap redirs := rfl
    rw [first, ih, words, List.map_cons, List.append_assoc, List.singleton_append]

def FromWords (spans : List Span) (ts : List Token) : Prop :=
  ∀ w ∈ spans, ∃ t ∈ ts, t.kind = .word ∧ t.span = w

namespace FromWords

variable {spans spans' : List Span} {ts ts' : List Token}

theorem append (left : FromWords spans ts) (right : FromWords spans' ts') :
    FromWords (spans ++ spans') (ts ++ ts') := by
  intro w member
  rcases List.mem_append.mp member with member | member
  · obtain ⟨t, here, facts⟩ := left w member
    exact ⟨t, List.mem_append_left _ here, facts⟩
  · obtain ⟨t, here, facts⟩ := right w member
    exact ⟨t, List.mem_append_right _ here, facts⟩

theorem mono (some : FromWords spans ts) (more : ts ⊆ ts') : FromWords spans ts' := by
  intro w member
  obtain ⟨t, here, facts⟩ := some w member
  exact ⟨t, more here, facts⟩

end FromWords

variable {redirs : List Redir}

theorem Redirs.fromWords {ts : List Token} (parsed : Redirs ts redirs) :
    FromWords (redirs.map Redir.file) ts := by
  induction parsed with
  | nil => nofun
  | @cons op file ts redirs operator name rest ih =>
    have named : (redirOf op.kind file.span).file = file.span := by
      unfold redirOf
      split <;> rfl
    intro w member
    rcases List.mem_cons.mp member with here | later
    · exact ⟨file, by simp, name, (named.symm.trans here.symm)⟩
    · exact ih.mono (fun t member => by simp [member]) w later

theorem Words.fromWords {ts : List Token} {argv : List Span} (parsed : Words ts argv redirs) :
    FromWords (argv ++ redirs.map Redir.file) ts := by
  induction parsed with
  | nil => nofun
  | @cons w ts ts' argv redirs redirs' word redirections rest ih =>
    intro span member
    simp only [List.map_append, List.cons_append, List.mem_cons, List.mem_append] at member
    rcases member with here | later | file | file
    · exact ⟨w, List.mem_cons_self, word, here.symm⟩
    · exact ih.mono (by simp) span (List.mem_append_left _ later)
    · exact redirections.fromWords.mono (by simp) span file
    · exact ih.mono (by simp) span (List.mem_append_right _ file)

theorem Cmd.words_back (cmd : Cmd) (n : Nat) : (Cmd.back^[n] cmd).words = cmd.words := by
  induction n with
  | zero => rfl
  | succ n ih => rw [Function.iterate_succ_apply', words, ih]

theorem Derives.fromWords {nonterminal : Nonterminal} {ts : List Token} {cmd : Cmd}
    (derived : Derives nonterminal ts cmd) : FromWords cmd.words ts := by
  induction derived with
  | @simple ts ts' argv redirs redirs' front words few =>
    rw [Cmd.words_wrap, Cmd.words, List.map_append]
    intro w member
    simp only [List.mem_append] at member
    rcases member with arg | file | file
    · exact words.fromWords.mono (List.subset_append_right ..) w (List.mem_append_left _ arg)
    · exact front.fromWords.mono (List.subset_append_left ..) w file
    · exact words.fromWords.mono (List.subset_append_right ..) w (List.mem_append_right _ file)
  | @block op cl ts ts' cmd redirs opens inside closes back ih =>
    rw [Cmd.words_wrap]
    refine (ih.append back.fromWords).mono fun t member => ?_
    rcases List.mem_append.mp member with here | here <;> simp [here]
  | single only ih => exact ih
  | piped first symbol second ihFirst ihSecond =>
    exact (ihFirst.append ihSecond).mono (by simp)
  | last only ampersands ih =>
    rw [Cmd.words_back]
    exact ih.mono (List.subset_append_left ..)
  | listed first ampersands symbol second ihFirst ihSecond =>
    rw [Cmd.words, Cmd.words_back]
    refine (ihFirst.append ihSecond).mono fun t member => ?_
    rcases List.mem_append.mp member with here | here <;> simp [here]

namespace CString

variable (s : CString)

def text (w : Span) : List UInt8 := (s.chars.take w.stop).drop w.start

def line : Line where
  bytes := s.chars ++ [0]
  stored := []

theorem stop_not_inside {t t' : Token} (member : t ∈ s.tokens 0) (word : t.kind = .word)
    (member' : t' ∈ s.tokens 0) (word' : t'.kind = .word) :
    ¬ (t'.span.start ≤ t.span.stop ∧ t.span.stop < t'.span.stop) := by
  obtain ⟨-, -, -, ends⟩ := s.tokens_word member word
  obtain ⟨-, inside, ordinary, -⟩ := s.tokens_word member' word'
  rintro ⟨low, high⟩
  have is := ordinary _ low high
  rw [ends (by omega)] at is
  cases is

theorem string_eq_text {line : Line} {w : Span} (ordered : w.start ≤ w.stop)
    (inside : w.stop ≤ s.chars.length)
    (kept : ∀ p, w.start ≤ p → p < w.stop → line.bytes[p]? = s.chars[p]?)
    (cut : line.bytes[w.stop]? = some 0) : line.string w.start = s.text w := by
  have length : (s.text w).length = w.stop - w.start := by
    rw [text, List.length_drop, List.length_take, Nat.min_eq_left inside]
  have split : line.bytes.drop w.start = s.text w ++ line.bytes.drop w.stop := by
    refine List.ext_getElem? fun i => ?_
    rw [List.getElem?_drop]
    by_cases low : i < w.stop - w.start
    · rw [List.getElem?_append_left (by omega), kept _ (by omega) (by omega), text,
        List.getElem?_drop, List.getElem?_take_of_lt (by omega)]
    · rw [List.getElem?_append_right (by omega), List.getElem?_drop, length]
      congr 1
      omega
  have first : (line.bytes.drop w.stop)[0]? = some 0 := by
    rw [List.getElem?_drop, Nat.add_zero, cut]
  have clean : ∀ c ∈ s.text w, (c != 0) = true := by
    intro c member
    refine bne_iff_ne.mpr fun zero => s.terminated ?_
    exact zero ▸ List.mem_of_mem_take (List.mem_of_mem_drop member)
  rw [Line.string, split, List.takeWhile_append_of_pos clean]
  cases rest : line.bytes.drop w.stop with
  | nil => rw [rest] at first; cases first
  | cons c rest' =>
    obtain rfl : c = 0 := by rw [rest] at first; exact Option.some.inj first
    rw [List.takeWhile_cons_of_neg (by decide), List.append_nil]

/-- Every word and every file name of the tree is cut out of the line: after `nulterminate` it is
the string that the line had there. Zeros are only stored in the line or in place of its
terminator, and never inside a word or a file name. -/
theorem nulterminate_cuts {cmd : Cmd} (parsed : s.parsecmd = .ok cmd) :
    (∀ w ∈ cmd.words, (nulterminate cmd s.line).string w.start = s.text w) ∧
    ∀ p ∈ (nulterminate cmd s.line).stored,
      p ≤ s.chars.length ∧ ∀ w ∈ cmd.words, ¬ (w.start ≤ p ∧ p < w.stop) := by
  have fromWords := (s.parsecmd_ok_iff.mp parsed).fromWords
  have apart : ∀ p ∈ cmd.words.map Span.stop,
      p ≤ s.chars.length ∧ ∀ w ∈ cmd.words, ¬ (w.start ≤ p ∧ p < w.stop) := by
    intro p member
    obtain ⟨w, here, rfl⟩ := List.mem_map.mp member
    obtain ⟨t, known, word, rfl⟩ := fromWords w here
    refine ⟨(s.tokens_word known word).2.1, fun w' here' => ?_⟩
    obtain ⟨t', known', word', rfl⟩ := fromWords w' here'
    exact s.stop_not_inside known word known' word'
  rw [nulterminate_eq]
  refine ⟨fun w member => ?_, fun p member => ?_⟩
  · obtain ⟨t, known, word, rfl⟩ := fromWords w member
    obtain ⟨longer, inside, -, -⟩ := s.tokens_word known word
    refine s.string_eq_text (Nat.le_of_lt longer) inside (fun p low high => ?_) ?_
    · rw [Line.getElem?_foldl_of_notMem _ _ fun stop => (apart p stop).2 _ member ⟨low, high⟩]
      exact List.getElem?_append_left (by omega)
    · refine Line.getElem?_foldl_of_mem _ _ (List.mem_map_of_mem member) ?_
      rw [line, List.length_append]
      exact Nat.lt_succ_of_le inside
  · rw [Line.mem_stored_foldl] at member
    exact apart p (member.resolve_right nofun)

def pipeline : CString := ⟨[0x61, 0x7C, 0x62, 0x3E, 0x63], by decide⟩

/-- The zeros replace the two operators and the terminator, and the words are the letters. -/
theorem pipeline_cut : ∃ cmd, pipeline.parsecmd = .ok cmd ∧
    cmd.words = [⟨0, 1⟩, ⟨2, 3⟩, ⟨4, 5⟩] ∧ (nulterminate cmd pipeline.line).stored = [5, 3, 1] ∧
    ∀ w ∈ cmd.words, (nulterminate cmd pipeline.line).string w.start = pipeline.text w := by
  have parsed : pipeline.parsecmd =
      .ok (.pipe (.exec [⟨0, 1⟩]) (.redir (.exec [⟨2, 3⟩]) ⟨⟨4, 5⟩, 0x201, 1⟩)) := by
    decide +kernel
  exact ⟨_, parsed, rfl, rfl, (nulterminate_cuts pipeline parsed).1⟩

end CString

end Xv6
