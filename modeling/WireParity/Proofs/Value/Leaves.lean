import WireParity.Proofs.Value.Matching

/-!
# The scalars of a value

A value is a tree with scalars at its leaves and tags on the way. `mapScalars` replaces every leaf
and keeps the tree; `tokens` lists tags and leaves from left to right, which is all that ever goes
onto the wire. The two commute, so what becomes of an encoding when leaves are replaced is read off
its tokens.
-/

namespace WireParity

/-- What is written as one: the tag of an enum, or a scalar. -/
inductive Token
  | tag (tag : UInt8)
  | scalar (x : Scalar)
deriving DecidableEq

namespace Token

/-- A token on the wire. -/
def bytes : Token → Bytes
  | tag t => [t]
  | scalar x => x.bytes

/-- The token with its scalar replaced. Tags are kept. -/
def mapScalar (f : Scalar → Scalar) : Token → Token
  | tag t => tag t
  | scalar x => scalar (f x)

/-- Tokens on the wire, one after another. -/
def wire (tokens : List Token) : Bytes := tokens.flatMap bytes

/-- Tokens after others are written after them. -/
@[simp] theorem wire_append (front back : List Token) : wire (front ++ back) = wire front ++ wire back :=
  List.flatMap_append

/-- A single token is written by its bytes. -/
@[simp] theorem wire_singleton (token : Token) : wire [token] = token.bytes :=
  List.flatMap_singleton bytes token

/-- A tag is one byte before what follows it. -/
@[simp] theorem wire_tag_cons (t : UInt8) (rest : List Token) : wire (tag t :: rest) = t :: wire rest :=
  rfl

end Token

namespace Value

variable (f : Scalar → Scalar)

mutual

/-- The value with every scalar replaced. -/
def mapScalars : Value → Value
  | scalar x => scalar (f x)
  | array items => array (mapItems items)
  | struct fields => struct (mapFields fields)
  | enum tag none => enum tag none
  | enum tag (some payload) => enum tag (some payload.mapScalars)

/-- Replaces the scalars of elements. -/
def mapItems : List Value → List Value
  | [] => []
  | item :: rest => item.mapScalars :: mapItems rest

/-- Replaces the scalars of fields. -/
def mapFields : List (Named Value) → List (Named Value)
  | [] => []
  | ⟨name, value⟩ :: rest => ⟨name, value.mapScalars⟩ :: mapFields rest

end

mutual

/-- The tags and scalars of a value from left to right. -/
def tokens : Value → List Token
  | scalar x => [.scalar x]
  | array items => itemTokens items
  | struct fields => fieldTokens fields
  | enum tag none => [.tag tag]
  | enum tag (some payload) => .tag tag :: payload.tokens

/-- The tags and scalars of elements. -/
def itemTokens : List Value → List Token
  | [] => []
  | item :: rest => item.tokens ++ itemTokens rest

/-- The tags and scalars of fields. -/
def fieldTokens : List (Named Value) → List Token
  | [] => []
  | ⟨_, value⟩ :: rest => value.tokens ++ fieldTokens rest

end

/-- Elements are replaced one by one. -/
theorem mapItems_eq (items : List Value) : mapItems f items = items.map (mapScalars f) := by
  induction items with
  | nil => rfl
  | cons item rest ih => rw [mapItems, ih, List.map_cons]

/-- Fields are replaced one by one, and keep their names. -/
theorem mapFields_eq (fields : List (Named Value)) :
    mapFields f fields = fields.map fun field => ⟨field.name, field.item.mapScalars f⟩ := by
  induction fields with
  | nil => rfl
  | cons field rest ih => rw [mapFields, ih, List.map_cons]

/-- Replacing scalars keeps the names of fields. -/
theorem names_mapFields (fields : List (Named Value)) :
    (mapFields f fields).map Named.name = fields.map Named.name := by
  rw [mapFields_eq, List.map_map]
  rfl

/-- Replacing the scalars of elements replaces those among their tokens, if it does so for each. -/
private theorem itemTokens_mapItems {items : List Value}
    (hitems : ∀ item ∈ items, (item.mapScalars f).tokens = item.tokens.map (Token.mapScalar f)) :
    itemTokens (mapItems f items) = (itemTokens items).map (Token.mapScalar f) := by
  induction items with
  | nil => rfl
  | cons item rest ih =>
    rw [List.forall_mem_cons] at hitems
    rw [mapItems, itemTokens, itemTokens, List.map_append, hitems.1, ih hitems.2]

/-- Replacing the scalars of fields replaces those among their tokens, if it does so for each. -/
private theorem fieldTokens_mapFields {fields : List (Named Value)}
    (hfields : ∀ field ∈ fields,
      (field.item.mapScalars f).tokens = field.item.tokens.map (Token.mapScalar f)) :
    fieldTokens (mapFields f fields) = (fieldTokens fields).map (Token.mapScalar f) := by
  induction fields with
  | nil => rfl
  | cons field rest ih =>
    rw [List.forall_mem_cons] at hfields
    rw [mapFields, fieldTokens, fieldTokens, List.map_append, hfields.1, ih hfields.2]

/-- Replacing the scalars of a value replaces those among its tokens. -/
@[simp] theorem tokens_mapScalars (value : Value) :
    (value.mapScalars f).tokens = value.tokens.map (Token.mapScalar f) := by
  induction value with
  | scalar x => rfl
  | array items ih => exact itemTokens_mapItems f ih
  | struct fields ih => exact fieldTokens_mapFields f ih
  | bare tag => rfl
  | loaded tag payload ih =>
    rw [mapScalars, tokens, tokens, ih]
    rfl

/-- A field among replaced ones comes from a field of its name. -/
theorem mem_mapFields {fields : List (Named Value)} {field : Named Value}
    (hfield : field ∈ mapFields f fields) :
    ∃ old ∈ fields, field = ⟨old.name, old.item.mapScalars f⟩ := by
  rw [mapFields_eq] at hfield
  obtain ⟨old, hold, rfl⟩ := List.mem_map.mp hfield
  exact ⟨old, hold, rfl⟩

/-- A value with other scalars repeats no more names than before. -/
theorem DistinctFields.mapScalars {value : Value} (hdistinct : value.DistinctFields) :
    (value.mapScalars f).DistinctFields := by
  induction hdistinct with
  | scalar x => exact .scalar (f x)
  | array _ ih =>
    rw [Value.mapScalars, mapItems_eq]
    exact .array (List.forall_mem_map.mpr ih)
  | struct hnames _ ih =>
    refine .struct (by rwa [names_mapFields]) fun field hfield => ?_
    obtain ⟨old, hold, rfl⟩ := mem_mapFields f hfield
    exact ih old hold
  | bare tag => exact .bare tag
  | loaded tag _ ih => exact .loaded tag ih

/-- Values that match still do when their scalars are replaced alike. -/
theorem Matches.mapScalars {x y : Value} (hmatch : x.Matches y) :
    (x.mapScalars f).Matches (y.mapScalars f) := by
  induction hmatch with
  | scalar x => exact .scalar (f x)
  | array hlength _ ih =>
    rw [Value.mapScalars, Value.mapScalars, mapItems_eq, mapItems_eq]
    refine .array (by simpa using hlength) fun index _ _ hx hy => ?_
    rw [List.getElem?_map, Option.map_eq_some_iff] at hx hy
    obtain ⟨x, hx, rfl⟩ := hx
    obtain ⟨y, hy, rfl⟩ := hy
    exact ih index x y hx hy
  | struct hnames _ ih =>
    refine .struct (by simpa only [names_mapFields] using hnames) fun _ hx _ hy hname => ?_
    obtain ⟨x, hxs, rfl⟩ := mem_mapFields f hx
    obtain ⟨y, hys, rfl⟩ := mem_mapFields f hy
    exact ih x hxs y hys hname
  | bare tag => exact .bare tag
  | loaded tag _ ih => exact .loaded tag ih

end Value

end WireParity
