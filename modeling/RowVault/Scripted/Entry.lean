import RowVault.Model.Adapter

/-!
# Entries and adapters given by data

An entry is a list of fields under a data id. Its adapter hands each field to the index model if the
model knows it, and keeps the others itself; single fields may be forced to either side.
-/

namespace RowVault.Scripted

/-- An entry of named values. -/
structure Entry where
  id : Bytes
  /-- Tells entries of one data id apart. -/
  tag : String := ""
  fields : List FieldValue := []
  /-- The formula that the entry asks for by itself. -/
  visibility : Bytes := []
  /-- The adapter that its rows name, if not the one that encodes the entry. -/
  statedAdapter : Option Bytes := none
  deriving DecidableEq, Repr

/-- A codec for one field, which may refuse to write texts. -/
structure FieldCodec where
  field : Bytes
  codec : ValueCodec := {}
  refusesText : Bool := false
  deriving DecidableEq, Repr

namespace FieldCodec

/-- The failure of a text that is refused. -/
def textRefused : Failure := ⟨.unsupported, .encode, "text refused"⟩

/-- The writing side. -/
def writer (c : FieldCodec) : FieldWriter where
  write v := if c.refusesText && v.text?.isSome then .error textRefused else c.codec.writer.write v
  visibility := c.codec.writer.visibility

/-- The field of an index with this codec. -/
def indexField (c : FieldCodec) : IndexField := ⟨c.field, c.writer, c.codec.reader⟩

/-- The first codec of a field. -/
def find? (codecs : List FieldCodec) (field : Bytes) : Option FieldCodec :=
  codecs.find? (·.field == field)

end FieldCodec

/-- What an adapter does with entries. -/
structure AdapterPlan where
  id : Bytes
  codecs : List FieldCodec := []
  kinds : List StatisticKind := [.count]
  deduplicated : Bool := true
  /-- Fields that are common even if the model does not know them. -/
  forcedCommon : List Bytes := []
  /-- Fields that are extended even if the model knows them. -/
  forcedExtended : List Bytes := []
  deriving DecidableEq, Repr

namespace AdapterPlan

/-- Whether a field is handed to the index model. -/
def isCommon (p : AdapterPlan) (model : IndexModel) (field : Bytes) : Bool :=
  (model.contains field && !p.forcedExtended.contains field) || p.forcedCommon.contains field

/-- What the adapter makes of an entry. -/
def encode (p : AdapterPlan) (entry : Entry) (model : IndexModel) : Encoding where
  adapter := entry.statedAdapter.getD p.id
  data := entry.id
  common := .ofList (entry.fields.filter fun v ↦ p.isCommon model v.field)
  extended := .ofList (entry.fields.filter fun v ↦ !p.isCommon model v.field)
  deduplicated := p.deduplicated

/-- The adapter of a plan. -/
def adapter (p : AdapterPlan) : Adapter Entry where
  id := p.id
  encode := p.encode
  writer? field := (FieldCodec.find? p.codecs field).map (·.writer)
  reader? field := (FieldCodec.find? p.codecs field).map (·.codec.reader)
  statisticKinds := p.kinds

end AdapterPlan

/-- The caller's formulas by field, with one for all other fields. -/
def visibilityByField (formulas : List (Bytes × Bytes)) (other : Bytes) :
    VisibilityWriter Entry where
  formula _ field _ := (formulas.lookup field).getD other

/-- The formula that each entry asks for by itself. -/
def visibilityOfEntry : VisibilityWriter Entry where
  formula entry _ _ := entry.visibility

end RowVault.Scripted
