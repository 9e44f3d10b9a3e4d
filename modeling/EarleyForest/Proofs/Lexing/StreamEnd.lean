import EarleyForest.Proofs.Lexing.Expression

/-!
# Where a stream ends

A stream that is made of tokens ends behind the last of them: as many columns further on as that
token has characters. A stream that is filled from a text ends where the text does, and columns of a
text count bytes. Where the last token is kept and ends no line the two ends have the same offset
and the same line, and their columns differ by as much as the characters and the bytes of that token
(`Expression.ofTokens_agrees`). Only white space can have characters of more than one byte.
-/

namespace EarleyForest

/-! ## Bytes and characters -/

theorem length_le_byteLength (cs : List Char) : cs.length ≤ byteLength cs := by
  induction cs with
  | nil => exact Nat.le_refl 0
  | cons c cs ih =>
    have := c.utf8Size_pos
    rw [List.length_cons, byteLength]
    omega

theorem length_eq_byteLength_iff {cs : List Char} :
    cs.length = byteLength cs ↔ ∀ c ∈ cs, c.utf8Size = 1 := by
  induction cs with
  | nil => exact ⟨fun _ => List.forall_mem_nil _, fun _ => rfl⟩
  | cons c cs ih =>
    have hpos := c.utf8Size_pos
    have hle := length_le_byteLength cs
    rw [List.forall_mem_cons, ← ih, List.length_cons, byteLength]
    omega

theorem utf8Size_of_isAlphanum {c : Char} (h : c.isAlphanum) : c.utf8Size = 1 := by
  have hle : c.val.toNat ≤ 127 := by
    have h : (decide (c.val ≥ 'A'.val ∧ c.val ≤ 'Z'.val) ||
        (c.val ≥ 'a'.val && c.val ≤ 'z'.val) || (c.val ≥ '0'.val && c.val ≤ '9'.val)) = true := h
    simp only [Bool.or_eq_true, Bool.and_eq_true, decide_eq_true_eq, UInt32.le_iff_toNat_le,
      ge_iff_le] at h
    have hz : 'z'.val.toNat = 122 := rfl
    have hZ : 'Z'.val.toNat = 90 := rfl
    have hnine : '9'.val.toNat = 57 := rfl
    omega
  exact Char.utf8Size_eq_one_iff.2 (UInt32.le_iff_toNat_le.2 hle)

/-- Only white space can have characters of more than one byte. -/
theorem ExpressionKind.Spells.utf8Size_eq {kind : ExpressionKind} {cs : List Char}
    (h : kind.Spells cs) (hkind : kind ≠ .blank) : ∀ c ∈ cs, c.utf8Size = 1 := by
  cases kind with
  | blank => exact absurd rfl hkind
  | plus | star | leftParen | rightParen =>
    rw [show cs = _ from h]
    exact List.forall_mem_singleton.2 rfl
  | number =>
    refine fun c hc => utf8Size_of_isAlphanum ?_
    simp [Char.isAlphanum, show c.isDigit = true from h c hc]
  | ifWord | thenWord | elseWord | identifier =>
    exact fun c hc => utf8Size_of_isAlphanum (h.2.1 c hc)

/-! ## Lines that go on -/

/-- A terminator does not end in characters that end no line. -/
theorem EndsLine.le_of_append {front word : List Char} {stop : Nat}
    (h : EndsLine (front ++ word) stop) (hword : ∀ c ∈ word, c ≠ '\n' ∧ c ≠ '\r') :
    stop ≤ byteLength front := by
  obtain ⟨before, mark, after, heq, hmark, rfl⟩ := h
  obtain ⟨init, c, hinit, hc⟩ : ∃ init c, before ++ mark = init ++ [c] ∧ (c = '\n' ∨ c = '\r') := by
    cases hmark with
    | pair => exact ⟨before ++ ['\r'], '\n', by simp, .inl rfl⟩
    | lineFeed => exact ⟨before, '\n', rfl, .inl rfl⟩
    | carriageReturn => exact ⟨before, '\r', rfl, .inr rfl⟩
  rw [hinit] at heq ⊢
  rcases List.append_eq_append_iff.1 heq with ⟨inside, hinside, hafter⟩ | ⟨between, rfl, -⟩
  · rcases List.eq_nil_or_concat inside with rfl | ⟨_, d, rfl⟩
    · rw [hinside, List.append_nil]
    · rw [List.concat_eq_append, ← List.append_assoc] at hinside
      obtain ⟨-, hd⟩ := List.append_inj' hinside rfl
      obtain rfl : c = d := List.singleton_inj.1 hd
      obtain ⟨hfeed, hreturn⟩ := hword c (by simp [hafter])
      exact hc.elim (absurd · hfeed) (absurd · hreturn)
  · rw [byteLength_append (init ++ [c])]
    exact Nat.le_add_right _ _

/-- Where no line ends behind the offset, the line goes on. -/
theorem IsLineAt.of_le {ends : List Nat} {off off' line start : Nat}
    (h : IsLineAt ends off line start) (hle : off ≤ off') (hnone : ∀ stop ∈ ends, stop ≤ off) :
    IsLineAt ends off' line start where
  start_eq := h.start_eq
  le := Nat.le_trans h.le hle
  behind {k stop} hk hstop := by
    obtain ⟨k, rfl⟩ := Nat.exists_eq_succ_of_ne_zero (Nat.ne_zero_of_lt hk)
    rw [List.getElem?_cons_succ] at hstop
    exact absurd (hnone stop (List.mem_of_getElem? hstop)) (Nat.not_le_of_lt (h.behind hk hstop))

theorem Span.eq_iff {s s' : Span} (hrange : s.range = s'.range) (hline : s.line = s'.line) :
    s = s' ↔ s.column.toNat = s'.column.toNat := by
  cases s
  cases s'
  simp_all [UInt32.toNat_inj]

namespace Expression

variable {text : String} {tokens : List (Token ExpressionKind)} {last : Token ExpressionKind}

/-- A text ends where its last token does. -/
theorem range_endSpan_of_lex (hlex : lex text = .ok tokens) (hlast : tokens.getLast? = some last) :
    (LineIndex.ofText text).endSpan.range = .empty last.span.range.stop := by
  obtain ⟨front, -, -, hspan⟩ := (cuts_of_lexFrom hlex).exists_of_getLast? hlast
  rw [hspan, Nat.zero_add, Nat.zero_add]
  rfl

/-- The end of a text whose last token ends no line is on the line of that token, as many columns
further on as the token has bytes. -/
theorem endSpan_of_lex (hlt : text.utf8ByteSize < 4294967295) (hlex : lex text = .ok tokens)
    (hlast : tokens.getLast? = some last)
    (hline : ∀ c ∈ last.text.toList, c ≠ '\n' ∧ c ≠ '\r') :
    let stop := (LineIndex.ofText text).endSpan
    stop.line = last.span.line ∧
      stop.column.toNat = last.span.column.toNat + last.text.utf8ByteSize := by
  obtain ⟨front, htext, -, hspan⟩ := (cuts_of_lexFrom hlex).exists_of_getLast? hlast
  have hsize := byteLength_toList text
  have hstop : (LineIndex.ofText text).endSpan = .point (.ofNat text.utf8ByteSize)
      (((LineIndex.ofText text).lineCol (.ofNat text.utf8ByteSize)).line + 1)
      (((LineIndex.ofText text).lineCol (.ofNat text.utf8ByteSize)).column + 1) := by
    rw [← hsize]
    rfl
  rw [hsize, Nat.zero_add, Nat.zero_add] at hspan
  have hfront : byteLength front + last.text.utf8ByteSize = text.utf8ByteSize := by
    rw [← hsize, htext, byteLength_append, byteLength_toList]
  obtain ⟨line, start, hat, hl, hc⟩ :=
    LineIndex.exists_isLineAt_oneBased hlt
      (show byteLength front ≤ text.utf8ByteSize by omega)
  obtain ⟨line', start', hat', hl', hc'⟩ :=
    LineIndex.exists_isLineAt_oneBased hlt (Nat.le_refl text.utf8ByteSize)
  have hends : ∀ stop ∈ lineStarts 0 text.toList, stop ≤ byteLength front := fun stop hmem =>
    EndsLine.le_of_append (htext ▸ mem_lineStarts_iff.1 hmem) hline
  obtain ⟨rfl, rfl⟩ := (hat.of_le (by omega) hends).unique hat'
  have hle := hat.le
  rw [hstop, hspan]
  refine ⟨UInt32.toNat_inj.1 (hl'.trans hl.symm), ?_⟩
  show (((LineIndex.ofText text).lineCol (.ofNat text.utf8ByteSize)).column + 1).toNat =
    (((LineIndex.ofText text).lineCol (.ofNat (byteLength front))).column + 1).toNat +
      last.text.utf8ByteSize
  rw [hc', hc]
  omega

theorem getLast?_filter {α : Type} {p : α → Bool} {l : List α} {a : α} (h : l.getLast? = some a)
    (ha : p a) : (l.filter p).getLast? = some a := by
  obtain ⟨init, rfl⟩ := List.getLast?_eq_some_iff.1 h
  simp [List.filter_append, ha]

variable {isTrivia : ExpressionKind → Bool}

/-- A stream made of tokens ends behind the last one, if that one is kept. -/
theorem endSpan_ofTokens (hlast : tokens.getLast? = some last)
    (hkept : isTrivia last.kind = false) : (TokenStream.ofTokens isTrivia tokens).endSpan =
      .point last.span.range.stop last.span.line
        (.ofNat (min (last.span.column.toNat + last.text.length) 4294967295)) := by
  have hkeptLast := getLast?_filter (p := fun t => !isTrivia t.kind) hlast (by simp [hkept])
  simp only [TokenStream.ofTokens, TokenStream.spanBehind, hkeptLast]

/-- The columns of the two ends. The end of the text has a column that is a word, so the other one
never comes to its bound. -/
theorem column_endSpan_ofTokens (hlt : text.utf8ByteSize < 4294967295)
    (hlex : lex text = .ok tokens) (hlast : tokens.getLast? = some last)
    (hkept : isTrivia last.kind = false)
    (hline : ∀ c ∈ last.text.toList, c ≠ '\n' ∧ c ≠ '\r') :
    (TokenStream.ofTokens isTrivia tokens).endSpan.column.toNat + last.text.utf8ByteSize =
      (LineIndex.ofText text).endSpan.column.toNat + last.text.length := by
  obtain ⟨-, hcolumn⟩ := endSpan_of_lex hlt hlex hlast hline
  have hlength := length_le_byteLength last.text.toList
  rw [byteLength_toList, String.length_toList] at hlength
  have hword := (LineIndex.ofText text).endSpan.column.toNat_lt
  rw [endSpan_ofTokens hlast hkept, hcolumn]
  show (UInt32.ofNat _).toNat + _ = _
  rw [UInt32.toNat_ofNat']
  omega

/-- A stream made of the tokens of a text and a stream filled from the text hold the same tokens,
are both at the first one, and end at the same offset, if the last token is kept. Where that one
ends no line, the ends have the same line too. The columns agree just if every character of that
token is one byte, as in all tokens but white space. From `2 ^ 32 - 1` bytes on, lines and columns
that are counted from one may be no words: what is said of such texts holds because sums of words
wrap around here, while with checked sums the reading of the text may stop. -/
theorem ofTokens_agrees (stream : TokenStream ExpressionKind) (isTrivia : ExpressionKind → Bool)
    (hlex : lex text = .ok tokens) (hlast : tokens.getLast? = some last)
    (hkept : isTrivia last.kind = false) :
    let made := TokenStream.ofTokens isTrivia tokens
    let (result, filled) := stream.tokenize isTrivia lex text
    (result = .ok () ∧ made.tokens = filled.tokens ∧ made.position = filled.position ∧
      made.endSpan.range = filled.endSpan.range) ∧
      (text.utf8ByteSize < 4294967295 → (∀ c ∈ last.text.toList, c ≠ '\n' ∧ c ≠ '\r') →
        made.endSpan.line = filled.endSpan.line ∧
        made.endSpan.column.toNat + last.text.utf8ByteSize =
          filled.endSpan.column.toNat + last.text.length ∧
        (made.endSpan = filled.endSpan ↔ ∀ c ∈ last.text.toList, c.utf8Size = 1) ∧
        (last.kind ≠ .blank → made.endSpan = filled.endSpan)) := by
  have hrange : (TokenStream.ofTokens isTrivia tokens).endSpan.range =
      (LineIndex.ofText text).endSpan.range := by
    rw [endSpan_ofTokens hlast hkept, range_endSpan_of_lex hlex hlast]
    rfl
  rw [TokenStream.tokenize, hlex]
  refine ⟨⟨rfl, rfl, rfl, hrange⟩, fun hlt hline => ?_⟩
  have hlineOf : (TokenStream.ofTokens isTrivia tokens).endSpan.line =
      (LineIndex.ofText text).endSpan.line := by
    rw [endSpan_ofTokens hlast hkept, (endSpan_of_lex hlt hlex hlast hline).1]
    rfl
  have hcolumn := column_endSpan_ofTokens hlt hlex hlast hkept hline
  have hagree : (TokenStream.ofTokens isTrivia tokens).endSpan = (LineIndex.ofText text).endSpan ↔
      ∀ c ∈ last.text.toList, c.utf8Size = 1 := by
    rw [← length_eq_byteLength_iff, byteLength_toList, String.length_toList,
      Span.eq_iff hrange hlineOf]
    omega
  obtain ⟨-, -, hspells, -⟩ := (cuts_of_lexFrom hlex).exists_of_getLast? hlast
  exact ⟨hlineOf, hcolumn, hagree, fun hkind => hagree.2 (hspells.utf8Size_eq hkind)⟩

/-- The last token stands on the second line, behind wide white space that is dropped. -/
theorem ofTokens_agrees_word :
    let isTrivia := fun kind => decide (kind = .blank)
    let last : Token ExpressionKind := ⟨.identifier, "x2", ⟨⟨.ofNat 5, .ofNat 7⟩, 2, 4⟩⟩
    let tokens := [⟨.number, "1", ⟨⟨.ofNat 0, .ofNat 1⟩, 1, 1⟩⟩,
      ⟨.blank, "\n\u3000", ⟨⟨.ofNat 1, .ofNat 5⟩, 1, 2⟩⟩, last]
    ("1\n\u3000x2".utf8ByteSize < 4294967295 ∧ lex "1\n\u3000x2" = .ok tokens ∧
      tokens.getLast? = some last ∧ isTrivia last.kind = false ∧
      ∀ c ∈ last.text.toList, c ≠ '\n' ∧ c ≠ '\r') ∧
      (TokenStream.ofTokens isTrivia tokens).endSpan =
        (TokenStream.empty.tokenize isTrivia lex "1\n\u3000x2").2.endSpan := by
  intro isTrivia last tokens
  have hlt : "1\n\u3000x2".utf8ByteSize < 4294967295 := by decide +kernel
  have hlex : lex "1\n\u3000x2" = .ok tokens := by decide +kernel
  have hline : ∀ c ∈ last.text.toList, c ≠ '\n' ∧ c ≠ '\r' := by simp [last]
  obtain ⟨-, hends⟩ := ofTokens_agrees TokenStream.empty isTrivia hlex
    (show tokens.getLast? = some last from rfl) rfl
  obtain ⟨-, -, -, hagrees⟩ := hends hlt hline
  exact ⟨⟨hlt, hlex, rfl, rfl, hline⟩, hagrees (by decide)⟩

/-- Behind wide white space that is kept, the two ends have different columns. -/
theorem not_ofTokens_agrees_wide : ¬ ∀ (stream : TokenStream ExpressionKind)
    (isTrivia : ExpressionKind → Bool) (text : String) (tokens : List (Token ExpressionKind))
    (last : Token ExpressionKind), lex text = .ok tokens → tokens.getLast? = some last →
      isTrivia last.kind = false → (∀ c ∈ last.text.toList, c ≠ '\n' ∧ c ≠ '\r') →
      (TokenStream.ofTokens isTrivia tokens).endSpan =
        (stream.tokenize isTrivia lex text).2.endSpan := by
  intro hagrees
  have hends := hagrees TokenStream.empty (fun _ => false) "1\u3000"
    [⟨.number, "1", ⟨⟨.ofNat 0, .ofNat 1⟩, 1, 1⟩⟩,
      ⟨.blank, "\u3000", ⟨⟨.ofNat 1, .ofNat 4⟩, 1, 2⟩⟩] _ (by decide +kernel) rfl rfl
    (by simp)
  exact absurd hends (by decide +kernel)

end Expression

end EarleyForest
