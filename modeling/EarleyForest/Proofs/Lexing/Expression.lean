import EarleyForest.Lexing.Expression
import EarleyForest.Lexing.Stream
import EarleyForest.Proofs.Outcomes
import EarleyForest.Proofs.Text.Lines
import Mathlib.Data.List.Chain
import Mathlib.Data.List.TakeWhile

/-!
# Lexing loses nothing

A text is cut at the places where one kind of token cannot go on (`Cuts`, `cuts_of_lexFrom`). So the
tokens lie one behind the other from the start of the text to its end (`Cuts.covers`), each holds
the bytes of its range (`Cuts.isSliceOf`), and no two neighbours could have been read as one
(`Cuts.isMunched`). Lexing fails just where a character stands that no token has in it, and names
the first of them (`lexFrom_eq_error`). What this means for a stream that is filled is said in
`Expression.tokenize_exact`.
-/

namespace EarleyForest

/-! ## Positions -/

/-- The span has the line and the column, counted from one, at which it starts in `text`. -/
def Span.StandsIn (s : Span) (text : String) : Prop :=
  ∃ ends : List Nat, ends.Pairwise (· < ·) ∧ (∀ stop, stop ∈ ends ↔ EndsLine text.toList stop) ∧
    ∃ line start, IsLineAt ends s.range.start.toNat line start ∧ s.line.toNat = line + 1 ∧
      s.column.toNat = s.range.start.toNat - start + 1

namespace LineIndex

theorem toNat_range_span (index : LineIndex) {start stop : Nat} (hle : start ≤ stop)
    (h : stop ≤ 4294967295) : (index.span start stop).range.start.toNat = start ∧
      (index.span start stop).range.stop.toNat = stop :=
  ⟨Nat.min_eq_left (Nat.le_trans hle h), Nat.min_eq_left h⟩

variable {text : String} (h : text.utf8ByteSize < 4294967295)
include h

/-- Counted from one, lines and columns still are 32-bit words. -/
theorem exists_isLineAt_oneBased {offset : Nat} (hoffset : offset ≤ text.utf8ByteSize) :
    ∃ line start, IsLineAt (lineStarts 0 text.toList) offset line start ∧
      (((ofText text).lineCol (.ofNat offset)).line + 1).toNat = line + 1 ∧
      (((ofText text).lineCol (.ofNat offset)).column + 1).toNat = offset - start + 1 := by
  have hlt : text.utf8ByteSize < 4294967296 := by omega
  obtain ⟨line, start, hline, hl, hc⟩ := exists_isLineAt hlt (.ofNat offset)
  have hclamp : (min (.ofNat offset) (ofText text).textLength : TextSize).toNat = offset := by
    rw [toNat_clamp hlt, Saturating.toNat_ofNat]
    omega
  rw [hclamp] at hline hc
  have hlength := length_lineStarts_le 0 text.toList
  rw [byteLength_toList] at hlength
  have hle := hline.le_length
  refine ⟨line, start, hline, ?_, ?_⟩
  · rw [UInt32.toNat_add, hl, UInt32.toNat_one]
    omega
  · rw [UInt32.toNat_add, hc, UInt32.toNat_one]
    omega

theorem standsIn_span {start : Nat} (hstart : start ≤ text.utf8ByteSize) (stop : Nat) :
    ((ofText text).span start stop).StandsIn text := by
  obtain ⟨line, first, hline, hl, hc⟩ := exists_isLineAt_oneBased h hstart
  have htoNat : ((ofText text).span start stop).range.start.toNat = start :=
    Nat.min_eq_left (by omega)
  refine ⟨_, pairwise_lineStarts 0 _, fun _ => mem_lineStarts_iff, line, first, ?_⟩
  rw [htoNat]
  exact ⟨hline, hl, hc⟩

end LineIndex

/-- The token has the text that its range has in `text`. -/
def Token.IsSliceOf {T : Type} (t : Token T) (text : String) : Prop :=
  text.toByteArray.extract t.span.range.start.toNat t.span.range.stop.toNat = t.text.toByteArray

/-- The tokens have one byte or more each and lie one behind the other from `start` to `stop`. -/
inductive Token.Cover {T : Type} : List (Token T) → Nat → Nat → Prop where
  | nil (offset : Nat) : Cover [] offset offset
  | cons {t : Token T} {ts : List (Token T)} {start stop : Nat}
    (hstart : t.span.range.start.toNat = start) (hlt : start < t.span.range.stop.toNat)
    (h : Cover ts t.span.range.stop.toNat stop) : Cover (t :: ts) start stop

theorem extract_toByteArray {text : String} {front word rest : List Char}
    (h : text.toList = front ++ (word ++ rest)) :
    text.toByteArray.extract (byteLength front) (byteLength front + byteLength word) =
      (String.ofList word).toByteArray := by
  refine ByteArray.ext (Array.ext' ?_)
  rw [ByteArray.data_extract, Array.toList_extract, toList_data_toByteArray, h,
    toList_data_toByteArray, String.toList_ofList, List.flatMap_append, List.flatMap_append,
    byteLength_eq, byteLength_eq, List.extract_eq_take_drop, Nat.add_sub_cancel_left,
    List.drop_left, List.take_left]

/-! ## Kinds and characters -/

namespace ExpressionKind

/-- Keywords and identifiers. -/
def IsWord (kind : ExpressionKind) : Prop :=
  kind = ifWord ∨ kind = thenWord ∨ kind = elseWord ∨ kind = identifier

/-- Whether a token of this kind that has been begun goes on with `c`. -/
def continues : ExpressionKind → Char → Bool
  | number => Char.isDigit
  | blank => isBlank
  | ifWord | thenWord | elseWord | identifier => Char.isAlphanum
  | plus | star | leftParen | rightParen => fun _ => false

/-- Tokens of this kind have such a text. -/
def Spells : ExpressionKind → List Char → Prop
  | number, cs => ∀ c ∈ cs, c.isDigit
  | blank, cs => ∀ c ∈ cs, isBlank c
  | plus, cs => cs = ['+']
  | star, cs => cs = ['*']
  | leftParen, cs => cs = ['(']
  | rightParen, cs => cs = [')']
  | kind, cs => ofWord cs = kind ∧ (∀ c ∈ cs, c.isAlphanum) ∧ ∀ c ∈ cs.head?, c.isAlpha

/-- Tokens of these kinds one behind the other would have been read as one token. -/
def Joins (kind next : ExpressionKind) : Prop :=
  kind = number ∧ next = number ∨ kind = blank ∧ next = blank ∨
    kind.IsWord ∧ (next.IsWord ∨ next = number)

theorem isWord_ofWord (cs : List Char) : (ofWord cs).IsWord := by
  unfold ofWord IsWord
  split
  · simp
  · split
    · simp
    · split <;> simp

theorem spells_of_isWord {kind : ExpressionKind} (h : kind.IsWord) {cs : List Char} :
    kind.Spells cs ↔ ofWord cs = kind ∧ (∀ c ∈ cs, c.isAlphanum) ∧ ∀ c ∈ cs.head?, c.isAlpha := by
  rcases h with rfl | rfl | rfl | rfl <;> rfl

theorem continues_of_isWord {kind : ExpressionKind} (h : kind.IsWord) :
    kind.continues = Char.isAlphanum := by
  rcases h with rfl | rfl | rfl | rfl <;> rfl

end ExpressionKind

namespace Expression

/-- Some token has `c` in it: an operator, a parenthesis, a letter or digit of ASCII, or white
space. -/
def IsReadable (c : Char) : Prop := c ∈ ['+', '*', '(', ')'] ∨ c.isAlphanum ∨ isBlank c

instance (c : Char) : Decidable (IsReadable c) := inferInstanceAs (Decidable (_ ∨ _ ∨ _))

variable {c d : Char} {cs ds : List Char} {kind next : ExpressionKind}

/-- A text is readable, or it has a first character that is not. -/
theorem readable_or_exists (cs : List Char) : (∀ c ∈ cs, IsReadable c) ∨
    ∃ before c after, cs = before ++ c :: after ∧ (∀ d ∈ before, IsReadable d) ∧
      ¬ IsReadable c := by
  cases h : cs.find? (fun c => ¬ IsReadable c) with
  | none => exact .inl (by simpa using h)
  | some c =>
    obtain ⟨hc, before, after, rfl, hbefore⟩ := List.find?_eq_some_iff_append.1 h
    exact .inr ⟨before, c, after, rfl, by simpa using hbefore, by simpa using hc⟩

theorem isReadable_of_continues (kind : ExpressionKind) (h : kind.continues c) : IsReadable c := by
  cases kind with
  | number => exact .inr (.inl (by simp [Char.isAlphanum, show c.isDigit = true from h]))
  | blank => exact .inr (.inr h)
  | ifWord | thenWord | elseWord | identifier => exact .inr (.inl h)
  | plus | star | leftParen | rightParen => cases h

/-- What a token starts with, and how far it goes. -/
theorem lead_eq_some {more : List Char} (h : lead c cs = some (kind, more)) :
    IsReadable c ∧ more = cs.takeWhile kind.continues ∧ kind.Spells (c :: more) := by
  have hall {p : Char → Bool} (hc : p c) : ∀ d ∈ c :: cs.takeWhile p, p d :=
    List.forall_mem_cons.2 ⟨hc, fun _ => List.mem_takeWhile_imp⟩
  have hnone : [] = cs.takeWhile fun _ => false := by cases cs <;> rfl
  unfold lead at h
  split_ifs at h with hplus hstar hleft hright hdigit hblank halpha <;> cases h
  · exact ⟨.inl (by simp [hplus]), hnone, by rw [hplus]; rfl⟩
  · exact ⟨.inl (by simp [hstar]), hnone, by rw [hstar]; rfl⟩
  · exact ⟨.inl (by simp [hleft]), hnone, by rw [hleft]; rfl⟩
  · exact ⟨.inl (by simp [hright]), hnone, by rw [hright]; rfl⟩
  · exact ⟨isReadable_of_continues .number hdigit, rfl, hall hdigit⟩
  · exact ⟨isReadable_of_continues .blank hblank, rfl, hall hblank⟩
  · have halphanum : c.isAlphanum := by simp [Char.isAlphanum, halpha]
    have hword := ExpressionKind.isWord_ofWord (c :: cs.takeWhile Char.isAlphanum)
    rw [ExpressionKind.spells_of_isWord hword, ExpressionKind.continues_of_isWord hword]
    exact ⟨.inr (.inl halphanum), rfl, rfl, hall halphanum, by simpa using halpha⟩

theorem lead_eq_none_iff : lead c cs = none ↔ ¬ IsReadable c := by
  unfold lead IsReadable Char.isAlphanum
  grind

/-- What cannot go on a token is not the start of one that would have been read with it. -/
theorem not_joins (h : next.Spells (d :: ds)) (hd : ¬ kind.continues d) : ¬ kind.Joins next := by
  rintro (⟨rfl, rfl⟩ | ⟨rfl, rfl⟩ | ⟨hword, hnext | rfl⟩)
  · exact hd (h d List.mem_cons_self)
  · exact hd (h d List.mem_cons_self)
  · rw [ExpressionKind.spells_of_isWord hnext] at h
    rw [ExpressionKind.continues_of_isWord hword] at hd
    exact hd (h.2.1 d List.mem_cons_self)
  · rw [ExpressionKind.continues_of_isWord hword] at hd
    have hdigit : d.isDigit := h d List.mem_cons_self
    exact hd (by simp [Char.isAlphanum, hdigit])

/-! ## Tokens cut from a text -/

/-- The tokens are cut from `cs`, which starts at byte `offset`, each one where it cannot go on. -/
inductive Cuts (index : LineIndex) : Nat → List Char → List (Token ExpressionKind) → Prop where
  | nil (offset : Nat) : Cuts index offset [] []
  | cons {offset : Nat} {kind : ExpressionKind} {c : Char} {more rest : List Char}
    {tokens : List (Token ExpressionKind)} (hspells : kind.Spells (c :: more))
    (hends : ∀ d ∈ rest.head?, ¬ kind.continues d)
    (h : Cuts index (offset + byteLength (c :: more)) rest tokens) :
    Cuts index offset (c :: more ++ rest)
      (⟨kind, .ofList (c :: more), index.span offset (offset + byteLength (c :: more))⟩ :: tokens)

variable {index : LineIndex} {offset : Nat} {tokens : List (Token ExpressionKind)}

theorem drop_length_takeWhile (p : Char → Bool) (cs : List Char) :
    cs.drop (cs.takeWhile p).length = cs.dropWhile p :=
  calc cs.drop (cs.takeWhile p).length
      = (cs.takeWhile p ++ cs.dropWhile p).drop (cs.takeWhile p).length := by
        rw [List.takeWhile_append_dropWhile]
    _ = cs.dropWhile p := List.drop_left

theorem drop_of_lead {more : List Char} (h : lead c cs = some (kind, more)) :
    cs.drop more.length = cs.dropWhile kind.continues := by
  rw [(lead_eq_some h).2.1, drop_length_takeWhile]

/-- Behind a token the text goes on with what cannot go on the token. -/
theorem lexFrom_cons {more : List Char} (h : lead c cs = some (kind, more)) :
    lexFrom index offset (c :: cs) =
      (lexFrom index (offset + byteLength (c :: more)) (cs.dropWhile kind.continues)).map
        (⟨kind, .ofList (c :: more),
          index.span offset (offset + byteLength (c :: more))⟩ :: ·) := by
  rw [lexFrom, h]
  dsimp only
  rw [drop_of_lead h]
  cases lexFrom index (offset + byteLength (c :: more)) (cs.dropWhile kind.continues) <;> rfl

/-- Induction along the tokens of a text, up to its end or to a character that starts none. -/
@[elab_as_elim]
theorem lexFrom_induction {motive : Nat → List Char → Prop} (nil : ∀ offset, motive offset [])
    (unreadable : ∀ offset c cs, ¬ IsReadable c → motive offset (c :: cs))
    (cons : ∀ offset c cs kind more, lead c cs = some (kind, more) →
      motive (offset + byteLength (c :: more)) (cs.dropWhile kind.continues) →
      motive offset (c :: cs)) (offset : Nat) (cs : List Char) : motive offset cs := by
  induction offset, cs using lexFrom.induct default with
  | case1 offset => exact nil offset
  | case2 offset c cs h => exact unreadable offset c cs (lead_eq_none_iff.1 h)
  | case3 offset c cs kind more h _ _ _ ih
  | case4 offset c cs kind more h _ _ _ ih =>
    exact cons offset c cs kind more h (drop_of_lead h ▸ ih)

theorem cuts_of_lexFrom (h : lexFrom index offset cs = .ok tokens) :
    Cuts index offset cs tokens := by
  induction offset, cs using lexFrom_induction generalizing tokens with
  | nil offset =>
    rw [lexFrom] at h
    cases h
    exact .nil offset
  | unreadable offset c cs hc => simp [lexFrom, lead_eq_none_iff.2 hc] at h
  | cons offset c cs kind more hlead ih =>
    obtain ⟨-, hmore, hspells⟩ := lead_eq_some hlead
    rw [lexFrom_cons hlead, map_eq_ok_iff] at h
    obtain ⟨rest, hrest, rfl⟩ := h
    have hends : ∀ d ∈ (cs.dropWhile kind.continues).head?, ¬ kind.continues d := by
      intro d hd
      have := List.head?_dropWhile_not kind.continues cs
      rw [Option.mem_def.1 hd] at this
      simp [this]
    have hcs : cs = more ++ cs.dropWhile kind.continues := by
      rw [hmore, List.takeWhile_append_dropWhile]
    have hcut := Cuts.cons hspells hends (ih hrest)
    rwa [List.cons_append, ← hcs] at hcut

/-- A text without unreadable characters is read to its end. -/
theorem exists_lexFrom (h : ∀ c ∈ cs, IsReadable c) :
    ∃ tokens, lexFrom index offset cs = .ok tokens := by
  induction offset, cs using lexFrom_induction with
  | nil offset => exact ⟨[], by rw [lexFrom]⟩
  | unreadable offset c cs hc => exact absurd (h c List.mem_cons_self) hc
  | cons offset c cs kind more hlead ih =>
    obtain ⟨tokens, htokens⟩ := ih fun d hd =>
      h d (List.mem_cons_of_mem c ((List.dropWhile_suffix _).subset hd))
    exact ⟨_, by rw [lexFrom_cons hlead, htokens]; rfl⟩

/-- What cannot go on a token ends it, whatever comes behind. -/
theorem takeWhile_append_cons {p : Char → Bool} (hc : ¬ p c) (before after : List Char) :
    (before ++ c :: after).takeWhile p = before.takeWhile p := by
  rw [List.takeWhile_append, List.takeWhile_cons_of_neg hc, List.append_nil]
  split
  · rename_i hlength
    exact ((List.takeWhile_prefix p).eq_of_length hlength).symm
  · rfl

theorem dropWhile_append_cons {p : Char → Bool} (hc : ¬ p c) (before after : List Char) :
    (before ++ c :: after).dropWhile p = before.dropWhile p ++ c :: after := by
  rw [List.dropWhile_append, List.dropWhile_cons_of_neg hc]
  split
  · rename_i hempty
    rw [List.isEmpty_iff.1 hempty, List.nil_append]
  · rfl

/-- The first unreadable character is the one that is named, with its position. -/
theorem lexFrom_eq_error {before after : List Char} (h : ∀ d ∈ before, IsReadable d)
    (hc : ¬ IsReadable c) : lexFrom index offset (before ++ c :: after) =
      .error ⟨.unexpectedChar c, index.span (offset + byteLength before)
        (offset + byteLength before + c.utf8Size)⟩ := by
  generalize hcs : before ++ c :: after = cs
  induction offset, cs using lexFrom_induction generalizing before with
  | nil offset => simp at hcs
  | unreadable offset d ds hd =>
    cases before with
    | nil =>
      cases hcs
      simp [lexFrom, lead_eq_none_iff.2 hc, byteLength]
    | cons b before =>
      rw [List.cons_append, List.cons.injEq] at hcs
      obtain ⟨rfl, rfl⟩ := hcs
      exact absurd (h b List.mem_cons_self) hd
  | cons offset d ds kind more hlead ih =>
    obtain ⟨hd, hmore, -⟩ := lead_eq_some hlead
    cases before with
    | nil =>
      cases hcs
      exact absurd hd hc
    | cons b before =>
      rw [List.cons_append, List.cons.injEq] at hcs
      obtain ⟨rfl, rfl⟩ := hcs
      have hstop : ¬ kind.continues c := mt (isReadable_of_continues kind) hc
      rw [takeWhile_append_cons hstop] at hmore
      have hbefore : byteLength (b :: before) =
          byteLength (b :: more) + byteLength (before.dropWhile kind.continues) := by
        rw [← byteLength_append, hmore, List.cons_append, List.takeWhile_append_dropWhile]
      have herror := ih (fun d hd => h d (List.mem_cons_of_mem b
        ((List.dropWhile_suffix _).subset hd))) (dropWhile_append_cons hstop before after).symm
      rw [lexFrom_cons hlead, herror, hbefore, ← Nat.add_assoc]
      rfl

/-! ## What the tokens cover -/

namespace Cuts

variable (h : Cuts index offset cs tokens)
include h

theorem covers (hle : offset + byteLength cs ≤ 4294967295) :
    Token.Cover tokens offset (offset + byteLength cs) := by
  induction h with
  | nil offset => exact .nil offset
  | @cons offset kind c more rest tokens _ _ _ ih =>
    rw [byteLength_append, ← Nat.add_assoc] at hle ⊢
    have hpos : 0 < byteLength (c :: more) := Nat.add_pos_left c.utf8Size_pos _
    obtain ⟨hstart, hstop⟩ := index.toNat_range_span (Nat.le_add_right offset _)
      (Nat.le_of_add_right_le hle)
    refine .cons hstart ?_ ?_
    · rw [hstop]
      omega
    · rw [hstop]
      exact ih hle

/-- Where a token comes from. -/
theorem exists_of_mem {t : Token ExpressionKind} (ht : t ∈ tokens) : ∃ front word rest,
    cs = front ++ (word ++ rest) ∧ t.kind.Spells word ∧ t.text = .ofList word ∧
      t.span =
        index.span (offset + byteLength front) (offset + byteLength front + byteLength word) := by
  induction h with
  | nil => cases ht
  | @cons offset kind c more rest tokens hspells _ _ ih =>
    rcases List.mem_cons.1 ht with rfl | ht
    · exact ⟨[], c :: more, rest, rfl, hspells, rfl, rfl⟩
    · obtain ⟨front, word, rest', rfl, hword, htext, hspan⟩ := ih ht
      refine ⟨c :: more ++ front, word, rest', by simp, hword, htext, ?_⟩
      rw [hspan, byteLength_append, Nat.add_assoc offset]

/-- Where the last token comes from. -/
theorem exists_of_getLast? {t : Token ExpressionKind} (ht : tokens.getLast? = some t) :
    ∃ front, cs = front ++ t.text.toList ∧ t.kind.Spells t.text.toList ∧
      t.span = index.span (offset + byteLength front) (offset + byteLength cs) := by
  induction h with
  | nil => cases ht
  | @cons offset kind c more rest tokens hspells _ h ih =>
    cases h with
    | nil =>
      cases ht
      exact ⟨[], by simp, by simpa using hspells, by simp [byteLength]⟩
    | cons hspells' hends' h' =>
      rw [List.getLast?_cons_cons] at ht
      obtain ⟨front, hcs, hkind, hspan⟩ := ih ht
      refine ⟨c :: more ++ front, by rw [hcs, List.append_assoc], hkind, ?_⟩
      simp only [hspan, byteLength_append, Nat.add_assoc]

theorem isMunched : tokens.IsChain fun t u => ¬ t.kind.Joins u.kind := by
  induction h with
  | nil => exact .nil
  | @cons _ kind _ _ rest tokens _ hends h ih =>
    refine ih.cons fun u hu => ?_
    cases h with
    | nil => cases hu
    | cons hspells =>
      cases hu
      exact not_joins hspells (hends _ rfl)

end Cuts

/-- The tokens cover the text. Each one holds the bytes of its range, has the position of its first
byte, and is of the kind that its text asks for. None could have been read on into the next one. -/
structure IsTokenization (text : String) (tokens : List (Token ExpressionKind)) : Prop where
  covers : Token.Cover tokens 0 text.utf8ByteSize
  isSliceOf : ∀ t ∈ tokens, t.IsSliceOf text
  standsIn : ∀ t ∈ tokens, t.span.StandsIn text
  spells : ∀ t ∈ tokens, t.kind.Spells t.text.toList
  isMunched : tokens.IsChain fun t u => ¬ t.kind.Joins u.kind

variable {text : String}

theorem isTokenization_of_lex (hlt : text.utf8ByteSize < 4294967295) (h : lex text = .ok tokens) :
    IsTokenization text tokens := by
  have hcuts := cuts_of_lexFrom h
  have hsize := byteLength_toList text
  refine {
    covers := by simpa [hsize] using hcuts.covers (by omega)
    isSliceOf := fun t ht => ?isSliceOf
    standsIn := fun t ht => ?standsIn
    spells := fun t ht => ?spells
    isMunched := hcuts.isMunched }
  all_goals obtain ⟨front, word, rest, htext, hspells, hword, hspan⟩ := hcuts.exists_of_mem ht
  case spells => rwa [hword, String.toList_ofList]
  all_goals
    rw [htext, byteLength_append, byteLength_append] at hsize
    rw [Nat.zero_add] at hspan
  case isSliceOf =>
    obtain ⟨hstart, hstop⟩ := (LineIndex.ofText text).toNat_range_span
      (Nat.le_add_right (byteLength front) (byteLength word)) (by omega)
    rw [Token.IsSliceOf, hspan, hstart, hstop, hword, extract_toByteArray htext]
  case standsIn => exact hspan ▸ LineIndex.standsIn_span hlt (by omega) _

/-! ## Streams that are filled -/

/-- Filling a stream from a text. It fails just if the text has an unreadable character; then the
first one is named with its position, and the stream is left as it was. Otherwise the tokens cover
the text, and the stream holds those that are not trivia. -/
theorem tokenize_exact (stream : TokenStream ExpressionKind) (isTrivia : ExpressionKind → Bool)
    (text : String) (hlt : text.utf8ByteSize < 4294967295) :
    let (result, filled) := stream.tokenize isTrivia lex text
    ((∃ e, result = .error e) ↔ ∃ c ∈ text.toList, ¬ IsReadable c) ∧
      (∀ e, result = .error e → filled = stream ∧ e.span.StandsIn text ∧
        ∃ before c after, text.toList = before ++ c :: after ∧ (∀ d ∈ before, IsReadable d) ∧
          ¬ IsReadable c ∧ e.fault = .unexpectedChar c ∧
          e.span.range.start.toNat = byteLength before ∧
          e.span.range.stop.toNat = byteLength before + c.utf8Size) ∧
      (result = .ok () → ∃ tokens, lex text = .ok tokens ∧ IsTokenization text tokens ∧
        filled.tokens.toList = tokens.filter (fun t => !isTrivia t.kind) ∧
        filled.position = 0) := by
  unfold TokenStream.tokenize
  rcases readable_or_exists text.toList with hall | ⟨before, c, after, htext, hbefore, hc⟩
  · obtain ⟨tokens, htokens⟩ : ∃ tokens, lex text = .ok tokens := exists_lexFrom hall
    rw [htokens]
    refine ⟨iff_of_false ?_ ?_, ?_, fun _ => ?_⟩
    · rintro ⟨e, he⟩
      cases he
    · rintro ⟨c, hc, hunreadable⟩
      exact hunreadable (hall c hc)
    · intro e he
      cases he
    · exact ⟨tokens, rfl, isTokenization_of_lex hlt htokens, rfl, rfl⟩
  · have herror : lex text = .error ⟨.unexpectedChar c, (LineIndex.ofText text).span
        (byteLength before) (byteLength before + c.utf8Size)⟩ := by
      rw [lex, htext, lexFrom_eq_error hbefore hc, Nat.zero_add]
    have hsize := byteLength_toList text
    rw [htext, byteLength_append, byteLength] at hsize
    obtain ⟨hstart, hstop⟩ := (LineIndex.ofText text).toNat_range_span
      (Nat.le_add_right (byteLength before) c.utf8Size) (by omega)
    rw [herror]
    refine ⟨iff_of_true ⟨_, rfl⟩ ⟨c, by simp [htext], hc⟩, ?_, fun h => ?_⟩
    · rintro e ⟨⟩
      exact ⟨rfl, LineIndex.standsIn_span hlt (by omega) _, before, c, after, htext, hbefore, hc,
        rfl, hstart, hstop⟩
    · cases h

/-- White space of several bytes and a line terminator are one token. What is filled from it stays
as it was when another text has an unreadable character. -/
theorem tokenize_exact_mixed :
    let isTrivia := fun kind => decide (kind = .blank)
    let text := "if x\r\n\u3000+2"
    let filled := (TokenStream.empty.tokenize isTrivia lex text).2
    (text.utf8ByteSize < 4294967295 ∧ "1\n $".utf8ByteSize < 4294967295) ∧
      (∃ tokens, IsTokenization text tokens ∧
        tokens.map Token.text = ["if", " ", "x", "\r\n\u3000", "+", "2"] ∧
        filled.tokens.toList.map Token.text = ["if", "x", "+", "2"]) ∧
      ∃ e, filled.tokenize isTrivia lex "1\n $" = (.error e, filled) ∧ e.span.StandsIn "1\n $" ∧
        e.span = ⟨⟨.ofNat 3, .ofNat 4⟩, 2, 2⟩ := by
  intro isTrivia text filled
  have hlt : text.utf8ByteSize < 4294967295 := by decide +kernel
  have hlt' : "1\n $".utf8ByteSize < 4294967295 := by decide +kernel
  refine ⟨⟨hlt, hlt'⟩, ?_, ?_⟩
  · obtain ⟨-, -, hfilled⟩ := tokenize_exact TokenStream.empty isTrivia text hlt
    obtain ⟨tokens, hlex, htokens, hkept, -⟩ := hfilled (by decide +kernel)
    have htexts : (lex text).map (·.map Token.text) =
        .ok ["if", " ", "x", "\r\n\u3000", "+", "2"] := by decide +kernel
    have hfiltered : (lex text).map
        (fun tokens => (tokens.filter fun t => !isTrivia t.kind).map Token.text) =
        .ok ["if", "x", "+", "2"] := by decide +kernel
    rw [hlex] at htexts hfiltered
    exact ⟨tokens, htokens, Except.ok.inj htexts, hkept ▸ Except.ok.inj hfiltered⟩
  · have herror : lex "1\n $" = .error ⟨.unexpectedChar '$', ⟨⟨.ofNat 3, .ofNat 4⟩, 2, 2⟩⟩ := by
      decide +kernel
    have hresult : (filled.tokenize isTrivia lex "1\n $").1 =
        .error ⟨.unexpectedChar '$', ⟨⟨.ofNat 3, .ofNat 4⟩, 2, 2⟩⟩ := by
      rw [TokenStream.tokenize, herror]
    obtain ⟨-, hfails, -⟩ := tokenize_exact filled isTrivia "1\n $" hlt'
    obtain ⟨hsame, hstands, -⟩ := hfails _ hresult
    exact ⟨_, Prod.ext hresult hsame, hstands, rfl⟩

end Expression

end EarleyForest
