import QueryAdmission.Json.Record

/-! Requests to check a query, as they are written. -/

namespace QueryAdmission

open Json (Reader Record)

/-- Who asks, and the text of what is asked for. The text is not looked into. -/
structure Envelope where
  client : String
  query : Option String
  deriving DecidableEq, Repr

namespace Envelope

/-- The written form; the client is required. -/
def record : Record Envelope where
  title := "CheckRequest"
  members := [
    Json.requiredField "client" .text fun c e => { e with client := c },
    Json.field "query" (.optional .rawText) fun q e => { e with query := q }]

def reader : Reader Envelope := record.reader ⟨"", none⟩

def ofBytes (body : Bytes) : Except Json.Fault Envelope := reader.readAll body

end Envelope

end QueryAdmission
