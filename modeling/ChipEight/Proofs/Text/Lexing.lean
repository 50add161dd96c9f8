import ChipEight.Source
import Mathlib.Data.List.Basic

/-!
# The kinds of the tokens of a text

Reading tokens does not depend on positions: skipping trivia and reading lexemes gives the
kinds of the tokens one after another. Separators may be skipped one by one, and a comment
up to the end of its line.
-/

namespace ChipEight

namespace Lexeme

/-- The characters with the Unicode property `White_Space`. -/
def whiteSpace : List Char :=
  ['\t', '\n', '\u000b', '\u000c', '\r', ' ', '\u0085', '\u00a0', '\u1680', '\u2000', '\u2001',
   '\u2002', '\u2003', '\u2004', '\u2005', '\u2006', '\u2007', '\u2008', '\u2009', '\u200a',
   '\u2028', '\u2029', '\u202f', '\u205f', '\u3000']

/-- A character that only stands between tokens: a comma or white space. -/
def Separates (c : Char) : Prop :=
  c = ',' ∨ c ∈ whiteSpace

/-- Whether a character only stands between tokens can be decided. -/
instance (c : Char) : Decidable (Separates c) :=
  inferInstanceAs (Decidable (_ ∨ _))

/-- The blank characters are those of white space. -/
theorem isBlank_iff {c : Char} : Text.isBlank c = true ↔ c ∈ whiteSpace := by
  have hpoint : ∀ other : Char, c = other ↔ c.toNat = other.toNat :=
    fun _ => Char.toNat_inj.symm
  simp only [Text.isBlank, Text.blankRanges, whiteSpace, List.any_cons, List.any_nil,
    Bool.or_eq_true, Bool.and_eq_true, decide_eq_true_eq, Bool.false_eq_true, List.mem_cons,
    List.not_mem_nil, or_false, hpoint, Char.reduceToNat]
  omega

/-- The separators are the characters that only stand between tokens. -/
theorem isSeparator_iff {c : Char} : isSeparator c = true ↔ Separates c := by
  rw [isSeparator, Bool.or_eq_true, beq_iff_eq, isBlank_iff, or_comm, Separates]

/-- The other characters are no separators. -/
theorem isSeparator_eq_false_iff {c : Char} : isSeparator c = false ↔ ¬Separates c := by
  rw [← isSeparator_iff, Bool.not_eq_true]

/-- A text without the trivia in front. -/
def skip (text : List Char) : List Char :=
  text.drop (trivia text)

/-- Counting trivia can start anywhere. -/
theorem triviaFrom_eq (inComment : Bool) (count : Nat) (text : List Char) :
    triviaFrom inComment count text = count + triviaFrom inComment 0 text := by
  induction text generalizing inComment count with
  | nil => rfl
  | cons c cs ih =>
    simp only [triviaFrom]
    split
    · rw [ih _ (count + 1), ih _ (0 + 1)]
      omega
    · split
      · rw [ih _ (count + 1), ih _ (0 + 1)]
        omega
      · split
        · rw [ih _ (count + 1), ih _ (0 + 1)]
          omega
        · rfl

/-- A separator counts as trivia. -/
theorem trivia_cons_separator {c : Char} (hseparator : isSeparator c = true) (cs : List Char) :
    trivia (c :: cs) = trivia cs + 1 := by
  simp only [trivia, triviaFrom, hseparator, Bool.false_eq_true, if_false, if_true]
  rw [triviaFrom_eq, Nat.add_comm]

/-- A separator is skipped. -/
theorem skip_cons_separator {c : Char} (hseparator : isSeparator c = true) (cs : List Char) :
    skip (c :: cs) = skip cs := by
  rw [skip, trivia_cons_separator hseparator, List.drop_succ_cons, skip]

/-- Separators are skipped. -/
theorem skip_separators_append {separators : List Char}
    (hall : ∀ c ∈ separators, isSeparator c = true) (text : List Char) :
    skip (separators ++ text) = skip text := by
  induction separators with
  | nil => rfl
  | cons c separators ih =>
    obtain ⟨hhead, htail⟩ := List.forall_mem_cons.mp hall
    rw [List.cons_append, skip_cons_separator hhead, ih htail]

/-- A comment runs to the end of its line. -/
theorem triviaFrom_comment {body : List Char} (hbody : '\n' ∉ body) (text : List Char) :
    triviaFrom true 0 (body ++ text) = body.length + triviaFrom true 0 text := by
  induction body with
  | nil => simp
  | cons c body ih =>
    rw [List.mem_cons, not_or] at hbody
    obtain ⟨hhead, htail⟩ := hbody
    have hinside : (c != '\n') = true := bne_iff_ne.mpr (Ne.symm hhead)
    rw [List.cons_append, triviaFrom, if_pos rfl, hinside, triviaFrom_eq, ih htail,
      List.length_cons]
    omega

/-- What follows a comment at the end of its line. -/
def EndsLine (text : List Char) : Prop :=
  ∀ c ∈ text.head?, c = '\n'

/-- A comment counts as trivia, and so does what follows at the end of its line. -/
theorem trivia_comment {body text : List Char} (hbody : '\n' ∉ body) (hends : EndsLine text) :
    trivia (';' :: (body ++ text)) = body.length + 1 + trivia text := by
  have hline : triviaFrom true 0 text = trivia text := by
    obtain _ | ⟨c, text⟩ := text
    · rfl
    · obtain rfl := hends c rfl
      rfl
  rw [trivia, triviaFrom, if_neg Bool.false_ne_true, if_neg (by decide), if_pos (by decide),
    triviaFrom_eq, triviaFrom_comment hbody, hline]
  omega

/-- A comment is skipped. -/
theorem skip_comment {body text : List Char} (hbody : '\n' ∉ body) (hends : EndsLine text) :
    skip (';' :: (body ++ text)) = skip text := by
  rw [skip, trivia_comment hbody hends, Nat.add_right_comm, List.drop_succ_cons,
    List.drop_append, List.drop_eq_nil_of_le (Nat.le_add_right _ _), List.nil_append,
    Nat.add_sub_cancel_left, skip]

/-- What starts a lexeme is no trivia. -/
theorem trivia_cons {c : Char} (hseparator : isSeparator c = false) (hcomment : c ≠ ';')
    (cs : List Char) : trivia (c :: cs) = 0 := by
  simp [trivia, triviaFrom, hseparator, hcomment]

/-- What starts a lexeme is not skipped. -/
theorem skip_cons {c : Char} (hseparator : isSeparator c = false) (hcomment : c ≠ ';')
    (cs : List Char) : skip (c :: cs) = c :: cs := by
  rw [skip, trivia_cons hseparator hcomment, List.drop_zero]

end Lexeme

/-- Text that only stands between tokens: separators, and comments with the ends of their
lines. -/
inductive Trivia : List Char → Prop
  | nil : Trivia []
  | separator {c : Char} {rest : List Char} (hseparator : Lexeme.Separates c)
      (hrest : Trivia rest) : Trivia (c :: rest)
  | comment {body rest : List Char} (hbody : '\n' ∉ body) (hrest : Trivia rest) :
      Trivia (';' :: (body ++ '\n' :: rest))

/-- All trivia in front of a text is counted. -/
theorem Trivia.trivia_append {gap : List Char} (hgap : Trivia gap) (text : List Char) :
    Lexeme.trivia (gap ++ text) = gap.length + Lexeme.trivia text := by
  induction hgap with
  | nil => exact (Nat.zero_add _).symm
  | separator hseparator _ ih =>
    rw [List.cons_append, Lexeme.trivia_cons_separator (Lexeme.isSeparator_iff.mpr hseparator), ih,
      List.length_cons]
    omega
  | @comment body rest hbody _ ih =>
    have hline : Lexeme.trivia ('\n' :: (rest ++ text)) = rest.length + Lexeme.trivia text + 1 := by
      rw [Lexeme.trivia_cons_separator (by decide), ih]
    have hends : Lexeme.EndsLine ('\n' :: (rest ++ text)) := fun c hmem =>
      (Option.some.inj hmem).symm
    rw [List.cons_append, List.append_assoc, List.cons_append, Lexeme.trivia_comment hbody hends,
      hline, List.length_cons, List.length_append, List.length_cons]
    omega

/-- A text consists of trivia and lexemes of some kinds, followed by the end mark. -/
inductive Lexes : List Char → List Token.Kind → Prop
  | done {text : List Char} (hskip : Lexeme.skip text = []) : Lexes text [.eof]
  | lexeme {text cs : List Char} {c : Char} {lexeme : Lexeme} {kinds : List Token.Kind}
      (hskip : Lexeme.skip text = c :: cs) (hread : Lexeme.read c cs = .ok lexeme)
      (hlexes : Lexes ((c :: cs).drop lexeme.length) kinds) : Lexes text (lexeme.kind :: kinds)

/-- Trivia in front does not matter. -/
theorem Lexes.of_skip_eq {text other : List Char} {kinds : List Token.Kind}
    (hlexes : Lexes text kinds) (hskip : Lexeme.skip other = Lexeme.skip text) :
    Lexes other kinds := by
  cases hlexes with
  | done hnone => exact .done (hskip.trans hnone)
  | lexeme hsome hread hlexes => exact .lexeme (hskip.trans hsome) hread hlexes

namespace Cursor

/-- Reading characters takes them from the front. -/
theorem rest_advance (count : Nat) (cursor : Cursor) :
    (cursor.advance count).rest = cursor.rest.drop count := by
  induction count generalizing cursor with
  | zero => rfl
  | succ count ih =>
    obtain ⟨before, _ | ⟨c, rest⟩, position⟩ := cursor
    · rfl
    · rw [advance, ih, List.drop_succ_cons]

/-- The tokens end where nothing but trivia remains. -/
theorem tokensFrom_of_nil {cursor start : Cursor}
    (hstart : cursor.advance (Lexeme.trivia cursor.rest) = start) (hrest : start.rest = [])
    (found : List Token) :
    cursor.tokensFrom found = .ok (⟨.eof, start.position⟩ :: found).reverse := by
  subst hstart
  rw [tokensFrom]
  split
  · rfl
  · next hcons => rw [hrest] at hcons; cases hcons

/-- What remains behind trivia starts with the next token, or no token can be read there. -/
theorem tokensFrom_of_cons {cursor start : Cursor} {c : Char} {cs : List Char}
    (hstart : cursor.advance (Lexeme.trivia cursor.rest) = start) (hrest : start.rest = c :: cs)
    (found : List Token) :
    cursor.tokensFrom found =
      match Lexeme.read c cs with
      | .error failure => .error (start.report failure)
      | .ok lexeme =>
        (start.advance lexeme.length).tokensFrom (⟨lexeme.kind, start.position⟩ :: found) := by
  subst hstart
  rw [tokensFrom]
  split
  · next hnil => rw [hrest] at hnil; cases hnil
  · next hcons =>
    obtain ⟨rfl, rfl⟩ := List.cons.inj (hrest.symm.trans hcons)
    cases Lexeme.read c cs <;> rfl

/-- The tokens from a cursor on have the kinds of the text that remains. -/
theorem exists_tokensFrom_of_lexes {cursor : Cursor} {kinds : List Token.Kind}
    (hlexes : Lexes cursor.rest kinds) (found : List Token) :
    ∃ tokens, cursor.tokensFrom found = .ok tokens ∧
      tokens.map (·.value) = (found.map (·.value)).reverse ++ kinds := by
  generalize htext : cursor.rest = text at hlexes
  induction hlexes generalizing cursor found with
  | done hskip =>
    rw [← htext, Lexeme.skip, ← rest_advance] at hskip
    exact ⟨_, tokensFrom_of_nil rfl hskip found, by simp⟩
  | @lexeme text cs c lexeme kinds hskip hread _ ih =>
    rw [← htext, Lexeme.skip, ← rest_advance] at hskip
    have hlexeme : ((cursor.advance (Lexeme.trivia cursor.rest)).advance lexeme.length).rest =
        (c :: cs).drop lexeme.length := by rw [rest_advance, hskip]
    obtain ⟨tokens, htokens, hkinds⟩ := ih
      (⟨lexeme.kind, (cursor.advance (Lexeme.trivia cursor.rest)).position⟩ :: found) hlexeme
    refine ⟨tokens, ?_, by simpa using hkinds⟩
    rw [tokensFrom_of_cons rfl hskip, hread]
    exact htokens

end Cursor

/-- The tokens of a text have its kinds. -/
theorem exists_tokenize_of_lexes {source : String} {kinds : List Token.Kind}
    (hlexes : Lexes source.toList kinds) :
    ∃ tokens, tokenize source = .ok tokens ∧ tokens.map (·.value) = kinds :=
  @Cursor.exists_tokensFrom_of_lexes (.start source.toList) kinds hlexes []

end ChipEight
