import ChipEight.Proofs.Text.Lexemes
import ChipEight.Proofs.Text.Lexing

/-!
# How a text divides into tokens

A text divides from its front into trivia and lexemes, and what has been divided determines the
tokens that have been read and where each of them stands. Either nothing but a last comment
remains in the end, and the text has these tokens and the end mark, or a fault remains, and it is
reported. There is no other way for a text to be read or to be refused.
-/

namespace ChipEight

/-- The place behind some text: one more than the line feeds in it, and one more than the
characters behind the last of them. -/
def Position.behind (text : List Char) : Position :=
  ⟨text.count '\n' + 1, (text.reverse.takeWhile (· != '\n')).length + 1⟩

/-- A character more moves the place behind a text. -/
theorem Position.behind_concat (text : List Char) (c : Char) :
    behind (text ++ [c]) = (behind text).next c := by
  by_cases hline : c = '\n'
  · simp [behind, next, hline]
  · simp [behind, next, hline]

namespace Cursor

/-- The cursor between two parts of a text. -/
def behind (front rest : List Char) : Cursor :=
  ⟨front.reverse, rest, .behind front⟩

/-- Reading characters moves them to the part in front. -/
theorem advance_behind (count : Nat) (front rest : List Char) :
    (behind front rest).advance count = behind (front ++ rest.take count) (rest.drop count) := by
  induction count generalizing front rest with
  | zero => rw [List.take_zero, List.append_nil, List.drop_zero, advance]
  | succ count ih =>
    obtain _ | ⟨c, rest⟩ := rest
    · rw [List.take_nil, List.append_nil, List.drop_nil]
      rfl
    · have hnext : behind (front ++ [c]) rest =
          ⟨c :: front.reverse, rest, (Position.behind front).next c⟩ := by
        rw [behind, List.reverse_concat, Position.behind_concat]
      rw [behind, advance, ← hnext, ih, List.append_assoc, List.singleton_append,
        List.take_succ_cons, List.drop_succ_cons]

/-- Reading all of a part moves it to the front. -/
theorem advance_behind_length (front text rest : List Char) :
    (behind front (text ++ rest)).advance text.length = behind (front ++ text) rest := by
  rw [advance_behind, List.take_left, List.drop_left]

/-- Characters may be read in two goes. -/
theorem advance_add (first second : Nat) (cursor : Cursor) :
    cursor.advance (first + second) = (cursor.advance first).advance second := by
  induction first generalizing cursor with
  | zero => rw [Nat.zero_add, advance]
  | succ first ih =>
    obtain ⟨before, _ | ⟨c, rest⟩, position⟩ := cursor
    · cases second <;> simp [advance]
    · rw [Nat.succ_add, advance, ih, advance]

/-- Only the place behind the trivia matters for the tokens from a cursor on. -/
theorem tokensFrom_congr {cursor other : Cursor}
    (hstart : cursor.advance (Lexeme.trivia cursor.rest) =
      other.advance (Lexeme.trivia other.rest)) (found : List Token) :
    cursor.tokensFrom found = other.tokensFrom found := by
  cases hrest : (other.advance (Lexeme.trivia other.rest)).rest with
  | nil => rw [tokensFrom_of_nil hstart hrest, tokensFrom_of_nil rfl hrest]
  | cons c cs => rw [tokensFrom_of_cons hstart hrest, tokensFrom_of_cons rfl hrest]

/-- Trivia in front of the rest does not matter for the tokens. -/
theorem tokensFrom_trivia {gap : List Char} (hgap : Trivia gap) (front rest : List Char)
    (found : List Token) :
    (behind front (gap ++ rest)).tokensFrom found =
      (behind (front ++ gap) rest).tokensFrom found := by
  refine tokensFrom_congr ?_ found
  rw [← advance_behind_length front gap rest, ← advance_add, advance_behind_length]
  exact congrArg (advance · (behind front (gap ++ rest))) (hgap.trivia_append rest)

/-- A lexeme gives the token that it means, at the place where it starts. -/
theorem tokensFrom_of_means {text rest : List Char} {kind : Token.Kind}
    (hmeans : Lexeme.Means text rest kind) (front : List Char) (found : List Token) :
    (behind front (text ++ rest)).tokensFrom found =
      (behind (front ++ text) rest).tokensFrom (⟨kind, .behind front⟩ :: found) := by
  obtain ⟨c, cs, rfl, hseparator, hcomment, lexeme, hread, rfl, hlength⟩ := hmeans.exists_read
  have hstart : (behind front (c :: cs ++ rest)).advance (Lexeme.trivia (c :: cs ++ rest)) =
      behind front (c :: cs ++ rest) := by
    rw [List.cons_append, Lexeme.trivia_cons hseparator hcomment, advance]
  have hrest : (behind front (c :: cs ++ rest)).rest = c :: (cs ++ rest) := rfl
  rw [tokensFrom_of_cons hstart hrest, hread]
  simp only [hlength, advance_behind_length]
  rfl

/-- A fault is reported, and no tokens are read. -/
theorem tokensFrom_of_faulty {rest : List Char} {failure : Lexeme.Failure}
    (hfaulty : Lexeme.Faulty rest failure) (front : List Char) (found : List Token) :
    (behind front rest).tokensFrom found = .error ((behind front rest).report failure) := by
  obtain ⟨c, cs, rfl, hseparator, hcomment, hread⟩ := hfaulty.exists_read
  have hstart : (behind front (c :: cs)).advance (Lexeme.trivia (c :: cs)) =
      behind front (c :: cs) := by
    rw [Lexeme.trivia_cons hseparator hcomment, advance]
  rw [tokensFrom_of_cons hstart rfl, hread]

end Cursor

/-- The rest of a text that has no tokens: nothing, or a comment that ends with the text. -/
inductive Closes : List Char → Prop
  | nil : Closes []
  | comment {body : List Char} (hbody : '\n' ∉ body) : Closes (';' :: body)

/-- All of such a rest counts as trivia. -/
theorem Closes.trivia_eq {rest : List Char} (hcloses : Closes rest) :
    Lexeme.trivia rest = rest.length := by
  cases hcloses with
  | nil => rfl
  | @comment body hbody =>
    have hends : Lexeme.EndsLine [] := fun _ hmem => nomatch hmem
    have htrivia := Lexeme.trivia_comment hbody hends
    rwa [List.append_nil] at htrivia

/-- The front of a text consists of trivia and lexemes, which mean some tokens, and the rest of
the text remains. A lexeme is looked at together with all that remains behind it, and its token
stands at the place where the lexeme starts. -/
inductive Divided : List Char → List Char → List Token → Prop
  | start {text : List Char} : Divided [] text []
  | trivia {front gap rest : List Char} {tokens : List Token} (hgap : Trivia gap)
      (hdivided : Divided front (gap ++ rest) tokens) : Divided (front ++ gap) rest tokens
  | lexeme {front text rest : List Char} {kind : Token.Kind} {tokens : List Token}
      (hmeans : Lexeme.Means text rest kind) (hdivided : Divided front (text ++ rest) tokens) :
      Divided (front ++ text) rest (tokens ++ [⟨kind, .behind front⟩])

/-- No lexeme means the end mark. -/
theorem Lexeme.Means.ne_eof {text rest : List Char} {kind : Token.Kind}
    (hmeans : Means text rest kind) : kind ≠ .eof := by
  cases hmeans with
  | @keyword _ _ mnemonic => cases mnemonic <;> simp [Mnemonic.keyword]
  | _ => simp

/-- The end mark stands nowhere in front of the end. -/
theorem Divided.ne_eof {front rest : List Char} {tokens : List Token}
    (hdivided : Divided front rest tokens) : ∀ token ∈ tokens, token.value ≠ .eof := by
  induction hdivided with
  | start => exact fun _ hmem => nomatch hmem
  | trivia _ _ ih => exact ih
  | lexeme hmeans _ ih =>
    intro token hmem
    rcases List.mem_append.mp hmem with hold | hnew
    · exact ih token hold
    · rw [List.mem_singleton.mp hnew]
      exact hmeans.ne_eof

/-- Reading a text goes on behind what has been divided, with its tokens found. -/
theorem Divided.tokensFrom_eq {front rest : List Char} {tokens : List Token}
    (hdivided : Divided front rest tokens) :
    (Cursor.start (front ++ rest)).tokensFrom [] =
      (Cursor.behind front rest).tokensFrom tokens.reverse := by
  induction hdivided with
  | start => rfl
  | trivia hgap _ ih =>
    rw [List.append_assoc, ih, Cursor.tokensFrom_trivia hgap]
  | lexeme hmeans _ ih =>
    rw [List.append_assoc, ih, Cursor.tokensFrom_of_means hmeans, List.reverse_concat]

/-- A text divides into some tokens, and nothing with a token remains. -/
inductive Divides (text : List Char) (tokens : List Token) : Prop
  | mk {front rest : List Char} (htext : text = front ++ rest)
      (hdivided : Divided front rest tokens) (hcloses : Closes rest)

/-- The end mark is none of these tokens. -/
theorem Divides.ne_eof {text : List Char} {tokens : List Token} (hdivides : Divides text tokens) :
    ∀ token ∈ tokens, token.value ≠ .eof := by
  obtain ⟨_, hdivided, _⟩ := hdivides
  exact hdivided.ne_eof

/-- A text divides up to a fault. The report names the place of the fault and quotes the text
around the place that reading had come to. -/
inductive Breaks (text : List Char) : SourceError → Prop
  | mk {front rest : List Char} {tokens : List Token} {failure : Lexeme.Failure}
      (htext : text = front ++ rest) (hdivided : Divided front rest tokens)
      (hfaulty : Lexeme.Faulty rest failure) :
      Breaks text ⟨failure.fault, .behind (front ++ rest.take failure.offset),
        (Cursor.behind (front ++ rest.take failure.reached) (rest.drop failure.reached)).context⟩

/-- A text that divides has its tokens, and the end mark behind all of it. -/
theorem Divides.tokenize_eq {source : String} {tokens : List Token}
    (hdivides : Divides source.toList tokens) :
    tokenize source = .ok (tokens ++ [⟨.eof, .behind source.toList⟩]) := by
  obtain ⟨htext, hdivided, hcloses⟩ := hdivides
  next front rest =>
  have hend : (Cursor.behind front rest).advance (Lexeme.trivia rest) =
      Cursor.behind source.toList [] := by
    rw [hcloses.trivia_eq, Cursor.advance_behind, List.take_length, List.drop_length, htext]
  rw [tokenize, htext, hdivided.tokensFrom_eq, Cursor.tokensFrom_of_nil hend rfl, ← htext,
    List.reverse_cons, List.reverse_reverse]
  rfl

/-- A text that divides up to a fault is refused for it. -/
theorem Breaks.tokenize_eq {source : String} {error : SourceError}
    (hbreaks : Breaks source.toList error) : tokenize source = .error error := by
  obtain ⟨htext, hdivided, hfaulty⟩ := hbreaks
  rw [tokenize, htext, hdivided.tokensFrom_eq, Cursor.tokensFrom_of_faulty hfaulty,
    Cursor.report, Cursor.advance_behind, Cursor.advance_behind]
  rfl

/-- There is trivia in front of every text up to its end, or up to a character that is no
trivia. -/
theorem exists_trivia_append (text : List Char) :
    ∃ gap rest, text = gap ++ rest ∧ Trivia gap ∧
      (Closes rest ∨ ∃ c cs, rest = c :: cs ∧ ¬Lexeme.Separates c ∧ c ≠ ';') := by
  -- A comment is left behind as a whole, so the induction is on the length.
  induction hlength : text.length using Nat.strong_induction_on generalizing text with
  | _ length ih =>
    obtain _ | ⟨c, cs⟩ := text
    · exact ⟨[], [], rfl, .nil, Or.inl .nil⟩
    by_cases hseparator : Lexeme.Separates c
    · obtain ⟨gap, rest, rfl, hgap, hrest⟩ := ih cs.length (by simp [← hlength]) cs rfl
      exact ⟨c :: gap, rest, rfl, .separator hseparator hgap, hrest⟩
    by_cases hcomment : c = ';'
    · subst hcomment
      obtain ⟨body, tail, rfl, hbody, hends⟩ : ∃ body tail, cs = body ++ tail ∧ '\n' ∉ body ∧
          Lexeme.EndsLine tail := by
        refine ⟨_, _, (List.takeWhile_append_dropWhile (p := (· != '\n'))).symm, ?_, ?_⟩
        · exact fun hmem => absurd (List.mem_takeWhile_imp hmem) (by decide)
        · intro first hmem
          simpa using stops_dropWhile (· != '\n') cs first hmem
      obtain _ | ⟨first, tail⟩ := tail
      · exact ⟨[], _, rfl, .nil, Or.inl (.comment (by simpa using hbody))⟩
      · obtain rfl := hends first rfl
        obtain ⟨gap, rest, rfl, hgap, hrest⟩ := ih tail.length
          (by rw [← hlength]; simp only [List.length_cons, List.length_append]; omega) tail rfl
        exact ⟨_, rest, by simp, .comment hbody hgap, hrest⟩
    · exact ⟨[], c :: cs, rfl, .nil,
        Or.inr ⟨c, cs, rfl, hseparator, hcomment⟩⟩

/-- What has been divided can be divided further, until nothing with a token or a fault
remains. -/
theorem Divided.divides_or_breaks {front rest : List Char} {tokens : List Token}
    (hdivided : Divided front rest tokens) :
    (∃ tokens, Divides (front ++ rest) tokens) ∨ ∃ error, Breaks (front ++ rest) error := by
  induction hlength : rest.length using Nat.strong_induction_on
    generalizing front rest tokens with
  | _ length ih =>
    obtain ⟨gap, rest, rfl, hgap, hrest⟩ := exists_trivia_append rest
    have hbehind := hdivided.trivia hgap
    rw [← List.append_assoc]
    rcases hrest with hcloses | ⟨c, cs, rfl, hseparator, hcomment⟩
    · exact Or.inl ⟨tokens, rfl, hbehind, hcloses⟩
    rcases @Lexeme.means_or_faulty c cs hseparator hcomment with
      ⟨text, rest, kind, htext, hmeans⟩ | ⟨failure, hfaulty⟩
    · rw [htext] at hbehind hlength ⊢
      have hpos : 0 < text.length := by
        obtain ⟨c, cs, rfl, -⟩ := hmeans.exists_read
        exact Nat.succ_pos _
      have hshorter : rest.length < length := by
        rw [← hlength, List.length_append, List.length_append]
        omega
      rw [← List.append_assoc]
      exact ih rest.length hshorter (.lexeme hmeans hbehind) rfl
    · exact Or.inr ⟨_, .mk rfl hbehind hfaulty⟩

/-- A text with tokens divides into all of them but the end mark. -/
theorem exists_divides_of_tokenize {source : String} {tokens : List Token}
    (htokens : tokenize source = .ok tokens) :
    ∃ lexed, Divides source.toList lexed ∧
      tokens = lexed ++ [⟨.eof, .behind source.toList⟩] := by
  rcases Divided.start.divides_or_breaks with ⟨lexed, hdivides⟩ | ⟨error, hbreaks⟩
  · exact ⟨lexed, hdivides, Except.ok.inj (htokens.symm.trans hdivides.tokenize_eq)⟩
  · exact nomatch htokens.symm.trans hbreaks.tokenize_eq

/-- A text without tokens divides up to the fault that is reported. -/
theorem breaks_of_tokenize {source : String} {error : SourceError}
    (herror : tokenize source = .error error) : Breaks source.toList error := by
  rcases Divided.start.divides_or_breaks with ⟨lexed, hdivides⟩ | ⟨other, hbreaks⟩
  · exact nomatch herror.symm.trans hdivides.tokenize_eq
  · exact Except.error.inj (herror.symm.trans hbreaks.tokenize_eq) ▸ hbreaks

/-- The tokens of a text are those that it divides into, each at the place where its lexeme
starts, and then one end mark at the end of the text. A text without tokens divides up to the
fault that is reported. -/
theorem tokenize_accounts_for_text (source : String) :
    (∀ tokens, tokenize source = .ok tokens ↔
      ∃ lexed, Divides source.toList lexed ∧ (∀ token ∈ lexed, token.value ≠ .eof) ∧
        tokens = lexed ++ [⟨.eof, .behind source.toList⟩]) ∧
    ∀ error, tokenize source = .error error ↔ Breaks source.toList error := by
  refine ⟨fun tokens => ⟨fun htokens => ?_, ?_⟩, fun error => ⟨breaks_of_tokenize, ?_⟩⟩
  · obtain ⟨lexed, hdivides, rfl⟩ := exists_divides_of_tokenize htokens
    exact ⟨lexed, hdivides, hdivides.ne_eof, rfl⟩
  · rintro ⟨lexed, hdivides, -, rfl⟩
    exact hdivides.tokenize_eq
  · exact Breaks.tokenize_eq

end ChipEight
