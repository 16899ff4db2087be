import DecisionGraph.Outcome
import DecisionGraph.Value.Document

namespace DecisionGraph

def stringOrNull (s : Option String) : Json := (s.map Json.string).getD .null

def Message.toJson (m : Message) : Json :=
  .object [
    ("severity", .string m.severity.tag),
    ("code", .string m.code),
    ("text", .string m.text),
    ("source_id", stringOrNull m.source),
    ("cause", stringOrNull m.cause)]

def Outcome.toJson? (o : Outcome) : Option Json := do
  let result ← match o.result with
    | none => some .null
    | some v => v.tagged?
  some (.object [
    ("id", .string o.id),
    ("name", .string o.name),
    ("status", .string o.status.text),
    ("result", result),
    ("messages", .array (o.messages.map Message.toJson))])

end DecisionGraph
