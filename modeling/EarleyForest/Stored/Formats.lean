import EarleyForest.Forest.Directions
import EarleyForest.Grammar.Rule
import EarleyForest.Parser.Config
import EarleyForest.Stored.Codec
import EarleyForest.Text.Range

/-!
# Stored data

The JSON forms of the data that outlives a run: cursors, positions and settings. Offsets, lines,
columns and rules are 32-bit words, nodes, alternatives and limits are 64-bit words.
-/

namespace EarleyForest

namespace Codec

/-- Numbers of 32 bits. -/
def word32 : Codec Nat := natural 4294967295

/-- Numbers of 64 bits. -/
def word64 : Codec Nat := natural 18446744073709551615

/-- The number of a rule. -/
def ruleId : Codec RuleId := word32.imap (fun n => some (.ofNat n)) Saturating.toNat

/-- The index of a node. -/
def nodeId : Codec NodeId := word64

/-- Offsets. -/
def textSize : Codec TextSize := word32.imap (fun n => some (.ofNat n)) Saturating.toNat

/-- Lines and columns. -/
def position : Codec UInt32 := word32.imap (fun n => some (.ofNat n)) UInt32.toNat

/-- Ranges, as `{"start":0,"end":0}`. -/
def textRange : Codec TextRange where
  encode r := .object
    [("start".toList, textSize.encode r.start), ("end".toList, textSize.encode r.stop)]
  decode j := do
    let fields ← j.fields? ["start", "end"]
    return ⟨← textSize.field "start" fields, ← textSize.field "end" fields⟩

/-- Spans, as `{"range":…,"line":0,"column":0}`. -/
def span : Codec Span where
  encode s := .object
    [("range".toList, textRange.encode s.range), ("line".toList, position.encode s.line),
      ("column".toList, position.encode s.column)]
  decode j := do
    let fields ← j.fields? ["range", "line", "column"]
    return ⟨← textRange.field "range" fields, ← position.field "line" fields,
      ← position.field "column" fields⟩

/-- Choices, as `{"node":0,"alternative":0}`. -/
def choice : Codec Choice where
  encode c := .object
    [("node".toList, nodeId.encode c.node), ("alternative".toList, word64.encode c.alternative)]
  decode j := do
    let fields ← j.fields? ["node", "alternative"]
    return ⟨← nodeId.field "node" fields, ← word64.field "alternative" fields⟩

/-- Cursors, as `{"choices":[…]}`. -/
def directions : Codec Directions where
  encode d := .object [("choices".toList, (list choice).encode d.choices)]
  decode j := do
    let fields ← j.fields? ["choices"]
    return ⟨← (list choice).field "choices" fields⟩

/-- Settings, as `{"max_items":null,"collect_expected":true}`. Without a limit there is no bound. -/
def parserConfig : Codec ParserConfig where
  encode c := .object
    [("max_items".toList, (optional word64).encode c.maxItems),
      ("collect_expected".toList, bool.encode c.collectExpected)]
  decode j := do
    let fields ← j.fields? ["max_items", "collect_expected"]
    return ⟨← (optional word64).fieldOrNull "max_items" fields,
      ← bool.field "collect_expected" fields⟩

end Codec

end EarleyForest
