import LookML.Text.Blank

/-!
# Keys — the keys that LookML treats specially

Four tables steer the language: keys whose value is a raw expression, keys that may repeat among
siblings, keys whose values are written in quotes, and blocks that keep `name` as a field.  Beside
them stand the two spellings of a repeatable key, one for a single declaration and one for the
list that gathers them.
-/

namespace LookML.Keys

/-! ## Tables -/

/-- Keys whose value is raw text up to `;;`. -/
def expressionKeys : List String :=
  ["expression_custom_filter", "expression", "html", "sql_trigger_value", "sql_table_name",
    "sql_distinct_key", "sql_start", "sql_always_having", "sql_always_where", "sql_trigger",
    "sql_foreign_key", "sql_where", "sql_end", "sql_create", "sql_latitude", "sql_longitude",
    "sql_step", "sql_on", "sql_preamble", "sql"]

/-- Keys that may stand more than once in one block. -/
def pluralKeys : List String :=
  ["view", "measure", "dimension", "dimension_group", "filter", "access_filter", "bind_filters",
    "map_layer", "parameter", "set", "column", "derived_column", "include", "explore", "link",
    "when", "allowed_value", "named_value_format", "join", "datagroup", "access_grant", "sql_step",
    "action", "param", "form_param", "option", "user_attribute_param", "assert", "test", "query",
    "extends", "aggregate_table", "constant", "local_dependency", "remote_dependency",
    "extension", "application", "analysis_config", "filters"]

/-- Keys whose values are always written in quotes. -/
def quotedKeys : List String :=
  ["label", "view_label", "group_label", "group_item_label", "suggest_persist_for",
    "default_value", "direction", "value_format", "name", "url", "icon_url", "form_url", "default",
    "tags", "value", "description", "sortkeys", "indexes", "partition_keys", "connection",
    "include", "max_cache_age", "allowed_values", "timezone", "persist_for", "cluster_keys",
    "distribution", "extents_json_url", "feature_key", "file", "property_key",
    "property_label_key", "else"]

/-- Blocks in which `name` is a field like any other, not the name of the block. -/
def nameFieldKeys : List String :=
  ["user_attribute_param", "param", "form_param", "option"]

/-- How many characters decide whether an expression key with its colon comes next. -/
def lookahead : Nat := 25

def isPlural (key : String) : Bool :=
  pluralKeys.contains key

def isExpression (key : String) : Bool :=
  expressionKeys.contains key

def isQuoted (key : String) : Bool :=
  quotedKeys.contains key

def hasNameField (key : String) : Bool :=
  nameFieldKeys.contains key

/-! ## Expression keys at the start of a text -/

/-- The expression key that `text` starts with, if a colon follows it at once. -/
def expressionKeyOf? (text : List Char) : Option String :=
  expressionKeys.find? fun key => (key.toList ++ [':']).isPrefixOf text

/-- A key is found only where it stands with its colon. -/
theorem isPrefixOf_of_expressionKeyOf? {text : List Char} {key : String}
    (h : expressionKeyOf? text = some key) : (key.toList ++ [':']).isPrefixOf text = true := by
  have := List.find?_some h
  exact this

/-- A key that is found is one of the table. -/
theorem mem_of_expressionKeyOf? {text : List Char} {key : String}
    (h : expressionKeyOf? text = some key) : key ∈ expressionKeys :=
  List.mem_of_find?_eq_some h

/-! ## One and many -/

/-- The key under which the declarations of `key` are gathered. -/
def pluralize (key : String) : String :=
  if key = "filters" || key = "bind_filters" || key = "extends" then key ++ "__all"
  else if key = "query" then "queries"
  else key ++ "s"

/-- The key of one declaration, from the key that gathers them. -/
def singularize (key : String) : String :=
  match Text.withoutEnd? "__all" key with
  | some stem => stem
  | none => if key = "queries" then "query" else (Text.withoutEnd? "s" key).getD key

end LookML.Keys
