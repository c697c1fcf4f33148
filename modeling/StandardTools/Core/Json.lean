/-!
# JSON values (`nlohmann::json`)

A number is a 64-bit integer or a double, the latter by its bits. The entries
of an object stand in the order of their keys, as in the `std::map` behind them.
-/

namespace StandardTools.Core

inductive Json where
  | null
  | boolean (b : Bool)
  | integer (n : Int)
  | float (bits : UInt64)
  | string (s : String)
  | array (items : List Json)
  | object (entries : List (String × Json))

namespace Json

/-- `contains` and `operator[]`: a value that is no object has no keys. -/
def field? : Json → String → Option Json
  | .object entries, key => entries.lookup key
  | _, _ => none

/-- `is_number`. -/
def isNumber : Json → Bool
  | .integer _ => true
  | .float _ => true
  | _ => false

def typeName : Json → String
  | .null => "null"
  | .boolean _ => "boolean"
  | .integer _ => "number"
  | .float _ => "number"
  | .string _ => "string"
  | .array _ => "array"
  | .object _ => "object"

/-- `get<std::string>()`, or the text of the exception it throws. -/
def getString : Json → Except String String
  | .string s => .ok s
  | j => .error ("[json.exception.type_error.302] type must be string, but is " ++ j.typeName)

/-- Every string in the value satisfies `P`, the keys of its objects included. -/
inductive AllStrings (P : String → Prop) : Json → Prop
  | null : AllStrings P .null
  | boolean (b : Bool) : AllStrings P (.boolean b)
  | integer (n : Int) : AllStrings P (.integer n)
  | float (bits : UInt64) : AllStrings P (.float bits)
  | string {s : String} (h : P s) : AllStrings P (.string s)
  | array {items : List Json} (h : ∀ j ∈ items, AllStrings P j) : AllStrings P (.array items)
  | object {entries : List (String × Json)} (hkeys : ∀ e ∈ entries, P e.1)
      (hvalues : ∀ e ∈ entries, AllStrings P e.2) : AllStrings P (.object entries)

variable {P : String → Prop}

attribute [simp] AllStrings.null AllStrings.boolean AllStrings.integer AllStrings.float

@[simp] theorem allStrings_string {s : String} : AllStrings P (.string s) ↔ P s :=
  ⟨fun h => by cases h; assumption, .string⟩

@[simp] theorem allStrings_object {entries : List (String × Json)} :
    AllStrings P (.object entries) ↔ ∀ e ∈ entries, P e.1 ∧ AllStrings P e.2 := by
  constructor
  · intro h
    cases h with
    | object hkeys hvalues => exact fun e he => ⟨hkeys e he, hvalues e he⟩
  · intro h
    exact .object (fun e he => (h e he).1) (fun e he => (h e he).2)

theorem allStrings_true (j : Json) : AllStrings (fun _ => True) j := by
  match j with
  | .null => exact .null
  | .boolean b => exact .boolean b
  | .integer n => exact .integer n
  | .float bits => exact .float bits
  | .string s => exact .string trivial
  | .array items => exact .array fun j _ => allStrings_true j
  | .object entries =>
    refine .object (fun _ _ => trivial) ?_
    intro (key, value) he
    have hsize : sizeOf value < 1 + sizeOf entries := by
      have hentry := List.sizeOf_lt_of_mem he
      rw [Prod.mk.sizeOf_spec] at hentry
      omega
    exact allStrings_true value

theorem AllStrings.field {j value : Json} {key : String} (h : AllStrings P j)
    (hfield : j.field? key = some value) : AllStrings P value := by
  cases j with
  | object entries =>
    obtain ⟨before, after, hentries, -⟩ := List.lookup_eq_some_iff.mp hfield
    have hmem : (key, value) ∈ entries := by
      rw [hentries]
      exact List.mem_append_right before List.mem_cons_self
    exact (allStrings_object.mp h _ hmem).2
  | null | boolean | integer | float | string | array => cases hfield

end Json

end StandardTools.Core
