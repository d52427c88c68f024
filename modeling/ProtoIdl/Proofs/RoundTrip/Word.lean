import ProtoIdl.Proofs.Parser.Block
import ProtoIdl.Proofs.Parser.Reading
import ProtoIdl.Proofs.RoundTrip.Printable
import ProtoIdl.Proofs.RoundTrip.Rendering
import ProtoIdl.Proofs.Token.Quoted

/-!
# Words of the canonical form

The tokens that carry a payload give it back: comments, quoted texts and numerals.  None of
them is punctuation, so they are passed over in the search for the end of a block, and only
comments are comments.
-/

namespace ProtoIdl

/-! ## Classes of tokens -/

theorem IsWord.not_punctuation {text : String} (hWord : IsWord text) :
    Token.isPunctuation text = false := by
  simp only [IsWord, Token.isWordLike, Bool.and_eq_true, Bool.not_eq_true'] at hWord
  exact hWord.1

theorem IsWord.not_comment {text : String} (hWord : IsWord text) :
    Token.isComment text = false := by
  simp only [IsWord, Token.isWordLike, Bool.and_eq_true, Bool.not_eq_true'] at hWord
  exact hWord.2

/-- What is not punctuation differs from every mark. -/
theorem ne_of_not_punctuation {token mark : Token} (hToken : token.isPunctuation = false)
    (hMark : mark.isPunctuation = true) : token ≠ mark := by
  rintro rfl
  rw [hToken] at hMark
  cases hMark

theorem IsWord.ne {text mark : Token} (hWord : IsWord text)
    (hMark : mark.isPunctuation = true) : text ≠ mark :=
  ne_of_not_punctuation hWord.not_punctuation hMark

/-- A token that is not punctuation is no brace. -/
theorem whole_cons {token : Token} {tokens : List Token} (hToken : token.isPunctuation = false)
    (hTokens : Cursor.Whole tokens) : Cursor.Whole (token :: tokens) :=
  .cons (ne_of_not_punctuation hToken (by decide)) (ne_of_not_punctuation hToken (by decide))
    hTokens

/-- A mark that is no brace, or a keyword, is passed over. -/
theorem whole_mark {token : Token} {tokens : List Token} (hTokens : Cursor.Whole tokens)
    (hToken : token ≠ Token.openBrace ∧ token ≠ Token.closeBrace := by decide) :
    Cursor.Whole (token :: tokens) :=
  .cons hToken.1 hToken.2 hTokens

theorem whole_word {text : String} {tokens : List Token} (hWord : IsWord text)
    (hTokens : Cursor.Whole tokens) : Cursor.Whole (text :: tokens) :=
  whole_cons hWord.not_punctuation hTokens

theorem whole_braced {inner : List Token} (hInner : Cursor.Whole inner) :
    Cursor.Whole (braced inner) :=
  hInner.braced

/-- A token of two characters or more is not punctuation. -/
theorem not_punctuation_of_two {token : Token} {first second : Char} {rest : List Char}
    (hToken : token.toList = first :: second :: rest) : token.isPunctuation = false := by
  rw [Token.isPunctuation, hToken]

/-- Parts with commas between them are passed over if the parts are. -/
theorem whole_commaSeparated {parts : List (List Token)}
    (hParts : ∀ part ∈ parts, Cursor.Whole part) : Cursor.Whole (commaSeparated parts) := by
  induction parts with
  | nil => exact .nil
  | cons part rest ih =>
      have hPart := hParts part (by simp)
      cases rest with
      | nil => exact hPart
      | cons next rest =>
          rw [commaSeparated]
          · exact hPart.append (whole_mark (ih fun other hOther => hParts other (by simp [hOther])))
          · simp

/-! ## Comments -/

theorem toList_ofComment (body : String) :
    (Token.ofComment body).toList = '/' :: '/' :: ' ' :: body.toList := by
  simp [Token.ofComment]

theorem isComment_ofComment (body : String) : (Token.ofComment body).isComment = true := by
  rw [Token.isComment, toList_ofComment]
  rfl

/-- A text without plus signs is the body of its comment. -/
theorem commentBody_ofComment {body : String} (hPlus : '+' ∉ body.toList) :
    (Token.ofComment body).commentBody = body := by
  have hKeep : body.toList.map (fun c => if c = '+' then ' ' else c) = body.toList := by
    rw [List.map_congr_left (g := id), List.map_id]
    intro c hMem
    have hNe : c ≠ '+' := by
      rintro rfl
      exact hPlus hMem
    simp [hNe]
  rw [Token.commentBody, toList_ofComment]
  simp [hKeep]

theorem commentBodies_commentTokens {comments : List String}
    (hComments : PrintableComments comments) :
    (commentTokens comments).map Token.commentBody = comments := by
  rw [commentTokens, List.map_map, List.map_congr_left (g := id), List.map_id]
  intro body hMem
  exact commentBody_ofComment (hComments body hMem)

theorem printableComments_nil : PrintableComments [] := by
  simp [PrintableComments]

theorem whole_commentTokens (comments : List String) : Cursor.Whole (commentTokens comments) := by
  induction comments with
  | nil => exact .nil
  | cons body rest ih => exact whole_cons (not_punctuation_of_two (toList_ofComment body)) ih

theorem noSemicolonFirst_commentTokens (comments : List String) :
    Parser.NoSemicolonFirst (commentTokens comments) := by
  cases comments with
  | nil => exact Parser.noSemicolonFirst_nil
  | cons body rest =>
      exact Parser.noSemicolonFirst_cons
        (ne_of_not_punctuation (not_punctuation_of_two (toList_ofComment body)) (by decide))

theorem isComment_of_mem_commentTokens {comments : List String} :
    ∀ token ∈ commentTokens comments, token.isComment = true := by
  intro token hMem
  obtain ⟨body, _, rfl⟩ := List.mem_map.mp hMem
  exact isComment_ofComment body

/-- The comments of a declaration are read up to its first token. -/
theorem reads_commentTokens {levels : Nat} {comments : List String} {token : Token}
    {rest : List Token} (hComments : PrintableComments comments)
    (hToken : token.isComment = false) :
    Parser.takeComments.Reads levels (commentTokens comments ++ token :: rest) comments
      (token :: rest) := by
  have hReads : Parser.takeComments.Reads levels (commentTokens comments ++ token :: rest)
      ((commentTokens comments).map Token.commentBody) (token :: rest) :=
    Parser.reads_commentsBefore isComment_of_mem_commentTokens hToken
  rwa [commentBodies_commentTokens hComments] at hReads

/-- No comments are read in front of another token. -/
theorem reads_no_comments {levels : Nat} {token : Token} {rest : List Token}
    (hToken : token.isComment = false) :
    Parser.takeComments.Reads levels (token :: rest) [] (token :: rest) :=
  reads_commentTokens printableComments_nil hToken

/-- The head of a member is its comments and its first token. -/
theorem reads_memberHead {levels : Nat} {comments : List String} {token : Token}
    {rest : List Token} {context : String} (hComments : PrintableComments comments)
    (hComment : token.isComment = false) (hClose : token ≠ Token.closeBrace) :
    (Parser.memberHead context).Reads levels (commentTokens comments ++ token :: rest)
      (some (comments, token)) rest := by
  have hReads : (Parser.memberHead context).Reads levels (commentTokens comments ++ token :: rest)
      (some ((commentTokens comments).map Token.commentBody, token)) rest :=
    Parser.reads_memberHead_some isComment_of_mem_commentTokens hComment hClose
  rwa [commentBodies_commentTokens hComments] at hReads

/-- The closing brace ends a braced list. -/
theorem reads_memberHead_done {levels : Nat} {rest : List Token} {context : String} :
    (Parser.memberHead context).Reads levels (Token.closeBrace :: rest) none rest :=
  Parser.reads_memberHead_none (List.forall_mem_nil _)

/-- The head of a statement is its comments and its first token. -/
theorem reads_statementHead {levels : Nat} {comments : List String} {token : Token}
    {rest : List Token} (hComments : PrintableComments comments)
    (hComment : token.isComment = false) :
    Parser.statementHead.Reads levels (commentTokens comments ++ token :: rest)
      (some (comments, token)) rest :=
  .bind (reads_commentTokens hComments hComment) (.bind (Parser.reads_advance token) (.pure _))

/-- The end of the tokens ends a list of statements. -/
theorem reads_statementHead_done {levels : Nat} :
    Parser.statementHead.Reads levels [] none [] :=
  .bind (Parser.reads_takeComments [] (by simp) (by simp))
    (.bind Parser.reads_advance_nil (.pure _))

/-! ## Lists with commas -/

/-- A comma announces a further item. -/
theorem reads_commaHead {levels : Nat} {rest : List Token} (close : Token) (context : String) :
    (Parser.commaHead close context).Reads levels ("," :: rest) (some ()) rest := by
  refine .bind (Parser.reads_next _ _ _) ?_
  rw [if_pos rfl]
  exact .pure _

/-- The closing token ends the list. -/
theorem reads_commaHead_done {levels : Nat} {rest : List Token} {close : Token}
    (hClose : close ≠ ",") (context : String) :
    (Parser.commaHead close context).Reads levels (close :: rest) none rest := by
  refine .bind (Parser.reads_next _ _ _) ?_
  rw [if_neg hClose, if_pos rfl]
  exact .pure _

/-- The tokens go on with a comma or with the end of the list. -/
def CommaFirst (close : Token) (tokens : List Token) : Prop :=
  ∃ token rest, tokens = token :: rest ∧ (token = "," ∨ token = close)

/-- Items with commas between them are read one by one.  `stateAt done` is the state when
the items `done` have been read. -/
theorem reads_commaList {levels : Nat} {rest : List Token} {close : Token} {context : String}
    {item : σ → Parser σ} {tokens : ξ → List Token} {items : List ξ} (stateAt : List ξ → σ)
    (hClose : close ≠ ",") (hSome : items ≠ [])
    (hItem : ∀ done x todo, items = done ++ x :: todo → ∀ rest, CommaFirst close rest →
      (item (stateAt done)).Reads levels (tokens x ++ rest) (stateAt (done ++ [x])) rest) :
    (Parser.commaList close context item (stateAt [])).Reads levels
      (commaSeparated (items.map tokens) ++ close :: rest) (stateAt items) rest := by
  -- a list with commas is never empty, so the suffixes have a first item
  have hSuffix : ∀ todo done x, items = done ++ x :: todo →
      (Parser.commaList close context item (stateAt done)).Reads levels
        (commaSeparated ((x :: todo).map tokens) ++ close :: rest) (stateAt items) rest := by
    intro todo
    induction todo with
    | nil =>
        intro done x hItems
        rw [hItems]
        exact .bind (hItem done x [] hItems (close :: rest) ⟨close, rest, rfl, .inr rfl⟩)
          (Parser.reads_loop_done (reads_commaHead_done hClose context))
    | cons next todo ih =>
        intro done x hItems
        have hNext := ih (done ++ [x]) next (by simp [hItems])
        have hTokens : commaSeparated ((x :: next :: todo).map tokens) ++ close :: rest =
            tokens x ++ "," :: (commaSeparated ((next :: todo).map tokens) ++ close :: rest) := by
          simp [commaSeparated]
        rw [hTokens]
        refine .bind (hItem done x (next :: todo) hItems _ ⟨",", _, rfl, .inl rfl⟩) ?_
        rw [Parser.loop_eq]
        exact .bind (reads_commaHead close context) hNext
  cases items with
  | nil => exact absurd rfl hSome
  | cons x todo => exact hSuffix todo [] x rfl

/-! ## Quoted texts -/

theorem toList_quoted (text : String) :
    (Token.quoted text).toList = '"' :: (text.toList ++ ['"']) := by
  simp [Token.quoted]

theorem startsQuoted_quoted (text : String) : (Token.quoted text).startsQuoted = true := by
  rw [Token.startsQuoted, toList_quoted]
  rfl

theorem isWord_quoted (text : String) : IsWord (Token.quoted text) :=
  Token.isWordLike_of_startsQuoted (startsQuoted_quoted text)

/-- The quotes around a text do not change what is left without quotes at the ends. -/
theorem unquote_quoted (text : String) : (Token.quoted text).unquote = Token.unquote text := by
  rw [Token.unquote, Token.unquote, toList_quoted, Text.trimWith_enclosed (by decide)]

theorem quoted_ne {text other : String} (hOther : Token.startsQuoted other = false) :
    Token.quoted text ≠ other :=
  Token.ne_of_startsQuoted (startsQuoted_quoted text) hOther

/-! ## Numerals -/

namespace Numeral

theorem digitValue?_of_isDigit {c : Char} (hDigit : c.isDigit = true) :
    digitValue? c = some (c.toNat - '0'.toNat) ∧ c.toNat - '0'.toNat < 10 := by
  have hBounds : '0' ≤ c ∧ c ≤ '9' := by
    simpa [Char.isDigit, Char.le_def] using hDigit
  refine ⟨by rw [digitValue?, if_pos hBounds], ?_⟩
  have hLe : c.toNat ≤ '9'.toNat := hBounds.2
  have hNine : '9'.toNat - '0'.toNat = 9 := by decide
  omega

theorem extendBy?_of_digits {digits : List Char} (hDigits : ∀ c ∈ digits, c.isDigit = true)
    (value : Nat) : extendBy? 10 value digits = some (Nat.ofDigitChars 10 digits value) := by
  induction digits generalizing value with
  | nil => simp [extendBy?]
  | cons c rest ih =>
      obtain ⟨hValue, hLt⟩ := digitValue?_of_isDigit (hDigits c (by simp))
      rw [extendBy?, hValue, Nat.ofDigitChars_cons]
      simp only [hLt, if_true]
      rw [ih (fun d hd => hDigits d (by simp [hd])), Nat.mul_comm]

theorem isDigit_of_mem_repr {n : Nat} {c : Char} (hMem : c ∈ n.repr.toList) :
    c.isDigit = true := by
  rw [Nat.toList_repr] at hMem
  exact Nat.isDigit_of_mem_toDigits (by decide) (by decide) hMem

/-- The decimal digits of a number stand for it. -/
theorem magnitude?_repr (n : Nat) : magnitude? n.repr.toList = some n := by
  have hDigits : ∀ c ∈ n.repr.toList, c.isDigit = true := fun _ => isDigit_of_mem_repr
  have hPlain : magnitude? n.repr.toList = ofDigits? 10 n.repr.toList := by
    unfold magnitude?
    split
    · next hHex => exact absurd (hDigits 'x' (by simp [hHex])) (by decide)
    · next hHex => exact absurd (hDigits 'X' (by simp [hHex])) (by decide)
    · rfl
  have hValue := extendBy?_of_digits hDigits 0
  rw [Nat.toList_repr, Nat.ofDigitChars_ten_toDigits] at hValue
  rw [hPlain, Nat.toList_repr]
  cases hList : Nat.toDigits 10 n with
  | nil => exact absurd hList Nat.toDigits_ne_nil
  | cons c rest => rwa [hList] at hValue

/-- The decimal form of an integer stands for it. -/
theorem value?_repr (n : Int) : value? n.repr.toList = some n := by
  cases n with
  | ofNat n =>
      have hPlain : value? n.repr.toList = (magnitude? n.repr.toList).map fun n => (n : Int) := by
        unfold value?
        split
        · next hSign => exact absurd (isDigit_of_mem_repr (c := '-') (by rw [hSign]; simp)) (by decide)
        · next hSign => exact absurd (isDigit_of_mem_repr (c := '+') (by rw [hSign]; simp)) (by decide)
        · rfl
      show value? n.repr.toList = _
      rw [hPlain, magnitude?_repr]
      rfl
  | negSucc n =>
      have hSign : (Int.negSucc n).repr.toList = '-' :: n.succ.repr.toList := by
        simp [Int.repr]
      rw [hSign, value?, magnitude?_repr]
      rfl

theorem within?_repr {interval : Interval} {n : Int} (hLeast : interval.least ≤ n)
    (hGreatest : n ≤ interval.greatest) : within? interval n.repr = some n := by
  rw [within?, value?_repr]
  simp [Option.filter, Interval.contains, hLeast, hGreatest]

/-- A numeral starts with a digit or with a minus sign. -/
theorem head?_repr (n : Int) :
    ∃ c rest, n.repr.toList = c :: rest ∧ (c.isDigit = true ∨ c = '-') := by
  cases n with
  | ofNat n =>
      show ∃ c rest, n.repr.toList = c :: rest ∧ _
      cases hList : n.repr.toList with
      | nil => simp at hList
      | cons c rest => exact ⟨c, rest, rfl, .inl (isDigit_of_mem_repr (by rw [hList]; simp))⟩
  | negSucc n => exact ⟨'-', n.succ.repr.toList, by simp [Int.repr], .inr rfl⟩

theorem repr_not_punctuation (n : Int) : Token.isPunctuation n.repr = false := by
  obtain ⟨c, rest, hList, hHead⟩ := head?_repr n
  have hMarks : Token.marks.all fun c => !c.isDigit && c != '-' := by decide
  have hMark : Token.isMark c = false := by
    by_contra hMark
    rw [Bool.not_eq_false, Token.isMark, List.contains_iff_mem] at hMark
    have hOther := List.all_eq_true.mp hMarks c hMark
    rcases hHead with hDigit | rfl
    · simp [hDigit] at hOther
    · simp at hOther
  rw [Token.isPunctuation, hList]
  split
  · next hOne =>
      cases hOne
      exact hMark
  · rfl

/-- A numeral is not one of the words or quoted texts that a number slot admits too. -/
theorem repr_startsQuoted (n : Int) : Token.startsQuoted n.repr = false := by
  cases hQuoted : Token.startsQuoted n.repr with
  | false => rfl
  | true =>
      have hNone := Token.value?_of_startsQuoted hQuoted
      rw [value?_repr] at hNone
      cases hNone

theorem repr_ne {n : Int} {word : Token} (hWord : value? word.toList = none) : n.repr ≠ word := by
  rintro rfl
  rw [value?_repr] at hWord
  cases hWord

end Numeral

theorem whole_numeral (n : Int) {tokens : List Token} (hTokens : Cursor.Whole tokens) :
    Cursor.Whole (n.repr :: tokens) :=
  whole_cons (Numeral.repr_not_punctuation n) hTokens

end ProtoIdl
