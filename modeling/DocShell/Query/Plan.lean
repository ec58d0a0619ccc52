import DocShell.Json.Printer
import DocShell.Query.Operation

namespace DocShell.Query

open DocShell.Json

def Scalar.plan : Scalar → Json
  | int value => .int value
  | float value => .float value
  | string value => .string value

/-- What a field is compared with, without the name of its kind. -/
def FilterValue.content : FilterValue → Json
  | scalar s => s.plan
  | array items => .array (items.map Scalar.plan)
  | timestamp t => .string (String.ofList t.text)

def FilterValue.plan (value : FilterValue) : Json :=
  .object [("type", .string value.kindName), ("value", value.content)]

def Filter.plan (filter : Filter) : Json :=
  .object [("field", .string filter.field), ("operator", .string filter.operator.name),
    ("value", filter.value.plan)]

def Direction.name : Direction → String
  | ascending => "ascending"
  | descending => "descending"

def Ordering.plan (ordering : Ordering) : Json :=
  .object [("field", .string ordering.field), ("direction", .string ordering.direction.name)]

def Operation.details : Operation → List (String × Json)
  | query q =>
      [("collection_path", .string q.collection),
        ("selected_fields", .array (q.fields.map .string)),
        ("filters", .array (q.filters.map Filter.plan)),
        ("order_by", .array (q.orderings.map Ordering.plan)),
        ("limit", .int q.limit)]
  | get collection document =>
      [("collection_path", .string collection), ("document_id", .string document)]
  | count collection filters =>
      [("collection_path", .string collection), ("filters", .array (filters.map Filter.plan))]
  | listCollections document => [("base_document_path", .string document)]
  | pager enabled => [("enabled", .bool enabled)]

def Operation.plan (operation : Operation) : Json :=
  .object (("operation", .string operation.name) :: operation.details)

end DocShell.Query
