import EarleyForest.Proofs.Forest.Lockstep
import EarleyForest.Proofs.Forest.Resumption
import EarleyForest.Proofs.Parser.Diagnostics

/-!
# Only the kinds ahead matter

What a run of the parser gives depends on the kinds of the tokens that are left, not on their texts
and spans nor on what was read before. Where a stream stands only moves the positions in the forest
or in the error (`Grammar.parseFrom_alike`).
-/

namespace EarleyForest

variable {T N : Type} {base base' : Nat}

/-! ## Errors that agree -/

/-- The reports are of positions equally far behind `base` and `base'`, where tokens of one kind
were found and the same kinds expected. -/
structure Rejection.Agrees (base base' : Nat) (e e' : Rejection T) : Prop where
  position : ∃ k, e.position = base + k ∧ e'.position = base' + k
  kind_eq : e.found?.map Token.kind = e'.found?.map Token.kind
  expected_eq : e.expected = e'.expected

/-- The errors are the same, where tokens are counted from `base` and from `base'`. -/
inductive ParseError.Agrees (base base' : Nat) : ParseError T N → ParseError T N → Prop where
  | rejected {e e' : Rejection T} (h : e.Agrees base base' e') :
    Agrees base base' (.rejected e) (.rejected e')
  | unknownStart (A : N) : Agrees base base' (.unknownStart A) (.unknownStart A)
  | chartLimitExceeded (limit k : Nat) :
    Agrees base base' (.chartLimitExceeded limit (base + k)) (.chartLimitExceeded limit (base' + k))

theorem TokenStream.map_kind_getElem?_rest {stream stream' : TokenStream T}
    (h : stream.rest.map Token.kind = stream'.rest.map Token.kind) (k : Nat) :
    stream.rest[k]?.map Token.kind = stream'.rest[k]?.map Token.kind := by
  rw [← List.getElem?_map, h, List.getElem?_map]

variable [DecidableEq N] [SearchKey N] {g : Grammar T N}

/-! ## Cursors of either forest -/

/-- The forest takes each cursor that the other one gives out. -/
def Forest.TakesCursorsOf (f f' : Forest g) : Prop :=
  ∀ cursor? next, f'.nextParse cursor? = .ok (some next) →
    ∃ next?, f.nextParse (some next.directions) = .ok next?

theorem Forest.Agrees.takesCursorsOf {f f' : Forest g} (h : f.Agrees f' base base')
    (hf : f.Sound) (hf' : f'.Sound) {root : NodeId} (hroot : f.root? = some root) :
    f.TakesCursorsOf f' ∧ f'.TakesCursorsOf f := by
  have hroot' := h.root?_eq.symm.trans hroot
  have htakes (d : Directions) := (h.nextParse (some d)).exists_eq_ok_iff
  constructor
  · intro cursor? next hnext
    exact (htakes _).2 (hf'.exists_nextParse hroot' hnext)
  · intro cursor? next hnext
    exact (htakes _).1 (hf.exists_nextParse hroot hnext)

/-! ## Runs of the parser -/

namespace Grammar

variable [DecidableEq T] {stream stream' : TokenStream T}

theorem agrees_rejection {n : Nat} (config : ParserConfig) (last : ItemSet g n)
    (h : stream.rest.map Token.kind = stream'.rest.map Token.kind) (k : Nat) :
    (g.rejection config last (stream.advance k)).Agrees stream.position stream'.position
      (g.rejection config last (stream'.advance k)) := by
  have hlength : stream.rest.length = stream'.rest.length := by
    simpa only [List.length_map] using congrArg List.length h
  refine ⟨⟨min k stream.rest.length, ?_, ?_⟩, ?_, rfl⟩
  · exact stream.position_advance_min k
  · exact hlength ▸ stream'.position_advance_min k
  · simp only [rejection, TokenStream.current?_advance_min, hlength]
    exact TokenStream.map_kind_getElem?_rest h _

/-- The runs read the same chart, and make agreeing forests or errors of it. -/
theorem agrees_of_rest (g : Grammar T N) (config : ParserConfig) (start : N)
    (h : stream.rest.map Token.kind = stream'.rest.map Token.kind) :
    Alike (ParseError.Agrees stream.position stream'.position)
      (fun f f' => f.Agrees f' stream.position stream'.position)
      (g.parseFrom config stream start).1 (g.parseFrom config stream' start).1 := by
  have hkinds (k : Nat) : stream.tokens[stream.position + k]?.map Token.kind =
      stream'.tokens[stream'.position + k]?.map Token.kind := by
    rw [← TokenStream.getElem?_rest, ← TokenStream.getElem?_rest]
    exact TokenStream.map_kind_getElem?_rest h k
  have hrejection {n : Nat} (last : ItemSet g n) := agrees_rejection config last h
  unfold parseFrom
  split
  · rename_i first _
    unfold parseAs
    rw [h]
    dsimp only
    split
    · rename_i o _
      exact .error (.chartLimitExceeded o.limit o.position)
    · rename_i chart _
      split
      · exact .ok (Forest.agrees_ofChart chart first hkinds)
      · exact .error (.rejected (hrejection chart.last chart.reached))
  · exact .error (.unknownStart start)

/-- A run gives the same wherever the stream stands, if the kinds of the tokens ahead are the same:
forests that agree node by node, with equal prices and the same cursors, or errors that agree. Each
forest takes a cursor of the other one just as its own, and as long as 32 bits suffice to number the
rules there are prices, and each cursor that is given out is taken. -/
theorem parseFrom_alike (g : Grammar T N) (config : ParserConfig) (start : N)
    (stream stream' : TokenStream T)
    (h : stream.rest.map Token.kind = stream'.rest.map Token.kind) :
    Alike (ParseError.Agrees stream.position stream'.position)
      (fun f f' => f.Agrees f' stream.position stream'.position ∧
        (∀ prices, f.price = .ok prices ↔ f'.price = .ok prices) ∧
        (∀ cursor?, Alike (Stop.Agrees stream.position stream'.position)
          (Option.Rel Forest.NextParse.Agrees) (f.nextParse cursor?) (f'.nextParse cursor?)) ∧
        (∀ cursor?, (∃ next?, f.nextParse cursor? = .ok next?) ↔
          ∃ next?, f'.nextParse cursor? = .ok next?) ∧
        (g.rules.size < 4294967296 →
          (∃ prices, f.price = .ok prices ∧ f'.price = .ok prices) ∧
            f.TakesCursorsOf f' ∧ f'.TakesCursorsOf f))
      (g.parseFrom config stream start).1 (g.parseFrom config stream' start).1 := by
  have halike := g.agrees_of_rest config start h
  generalize hx : (g.parseFrom config stream start).1 = x,
    hx' : (g.parseFrom config stream' start).1 = x' at halike
  cases halike with
  | error herror => exact .error herror
  | @ok f f' hagrees =>
    refine .ok ⟨hagrees, fun prices => hagrees.price.eq_ok_iff, hagrees.nextParse,
      fun cursor? => (hagrees.nextParse cursor?).exists_eq_ok_iff, fun hg => ?_⟩
    obtain ⟨-, hexact⟩ := isExact_of_parseFrom hg hx
    obtain ⟨-, hexact'⟩ := isExact_of_parseFrom hg hx'
    obtain ⟨prices, hprices⟩ := hexact.sound.exists_price
    exact ⟨⟨prices, hprices, hagrees.price.eq_ok_iff.1 hprices⟩,
      hagrees.takesCursorsOf hexact.sound hexact'.sound hexact.root.1⟩

/-- What is left of `secondOfTwo` is parsed like a token of the same kind with another text that
stands first. -/
theorem parseFrom_alike_pairs : ∃ alone : TokenStream Char,
    secondOfTwo.rest.map Token.kind = alone.rest.map Token.kind ∧ alone.position = 0 ∧
      ∃ f f', (pairs.parseFrom {} secondOfTwo 'S').1 = .ok f ∧
        (pairs.parseFrom {} alone 'S').1 = .ok f' ∧ f.Agrees f' 1 0 ∧
        f.TakesCursorsOf f' ∧ f'.TakesCursorsOf f := by
  let alone : TokenStream Char := .ofTokens (fun _ => false) [⟨'a', "A", default⟩]
  have hkinds : secondOfTwo.rest.map Token.kind = alone.rest.map Token.kind := by decide +kernel
  obtain ⟨f, hf⟩ := exists_parse_secondOfTwo
  have halike := parseFrom_alike pairs {} 'S' secondOfTwo alone hkinds
  rw [hf] at halike
  generalize hx : (pairs.parseFrom {} alone 'S').1 = x at halike
  cases halike with
  | @ok _ f' h =>
    obtain ⟨hagrees, -, -, -, hcursors⟩ := h
    exact ⟨alone, hkinds, rfl, f, f', hf, hx, hagrees, (hcursors (by decide)).2⟩

end Grammar

end EarleyForest
