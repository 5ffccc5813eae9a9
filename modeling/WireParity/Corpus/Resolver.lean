import WireParity.CodecError
import WireParity.Corpus.Schema
import WireParity.Shape.Json
import WireParity.Shape.WellFormed
import WireParity.Table

/-!
# Resolving named types

A reference stands for the whole of the type it names. The resolver remembers the shapes it has
found and the names it is in the middle of, so that a type that refers back to itself is noticed.
A name that the table does not have may still be that of a scalar kind.
-/

namespace WireParity

/-- Why a type does not resolve. -/
inductive TypeFault
  | unknown (name : String)
  | recursive (names : List String) (name : String)
  | invalid (name : String) (error : CodecError)
deriving Repr, DecidableEq

/-- The wording of a fault. -/
def TypeFault.message : TypeFault → String
  | unknown name => s!"unknown type '{name}'"
  | recursive names name => "recursive type: " ++ " -> ".intercalate (names ++ [name])
  | invalid name error => s!"type '{name}' is invalid: {error.message}"

/-- What a resolver remembers: the shapes of resolved names, and the names that are being resolved,
outermost first. -/
structure Resolver where
  resolved : Table Shape
  inProgress : List String
deriving Repr

/-- A step that may fail, and leaves the resolver in a new state either way. -/
abbrev Resolving (α : Type) := Resolver → Except TypeFault α × Resolver

namespace Resolving

/-- A result without a step. -/
def done {α : Type} (a : α) : Resolving α := fun r => (.ok a, r)

/-- A step on the result of another. -/
def andThen {α β : Type} (first : Resolving α) (next : α → Resolving β) : Resolving β := fun r =>
  match first r with
  | (.ok a, r) => next a r
  | (.error e, r) => (.error e, r)

end Resolving

namespace Resolver

/-- Nothing is resolved yet. -/
def fresh : Resolver := ⟨[], []⟩

mutual

/-- The shape of a schema, given how names resolve. -/
def expand (named : String → Resolving Shape) : Schema → Resolving Shape
  | .ref name => named name
  | .scalar kind => .done (.scalar kind)
  | .array elem count => (expand named elem).andThen fun shape => .done (.array shape count)
  | .struct fields => (expandNamed named fields).andThen fun parts => .done (.struct parts)
  | .enum variants => (expandVariants named variants).andThen fun parts => .done (.enum parts)
  | .union members => (expandNamed named members).andThen fun parts => .done (.union parts)

/-- The shapes of fields or members. -/
def expandNamed (named : String → Resolving Shape) :
    List (Named Schema) → Resolving (List (Named Shape))
  | [] => .done []
  | ⟨name, schema⟩ :: rest =>
    (expand named schema).andThen fun shape =>
      (expandNamed named rest).andThen fun parts => .done (⟨name, shape⟩ :: parts)

/-- The shapes of the payloads of variants. -/
def expandVariants (named : String → Resolving Shape) :
    List (Variant Schema) → Resolving (List (Variant Shape))
  | [] => .done []
  | ⟨name, tag, none⟩ :: rest =>
    (expandVariants named rest).andThen fun parts => .done (⟨name, tag, none⟩ :: parts)
  | ⟨name, tag, some schema⟩ :: rest =>
    (expand named schema).andThen fun shape =>
      (expandVariants named rest).andThen fun parts => .done (⟨name, tag, some shape⟩ :: parts)

end

/-- Starts to resolve a name. -/
def enter (name : String) (r : Resolver) : Resolver :=
  { r with inProgress := r.inProgress ++ [name] }

/-- The innermost name is no longer being resolved. -/
def leave (r : Resolver) : Resolver := { r with inProgress := r.inProgress.dropLast }

/-- Remembers the shape of a name. -/
def remember (name : String) (shape : Shape) (r : Resolver) : Resolver :=
  { r with resolved := Table.insert name shape r.resolved }

/-- The shape of a name, where at most `depth` names are resolved inside one another. A table has
only so many names, so a deeper nesting repeats one. -/
def namedWithin (table : Table Schema) : Nat → String → Resolving Shape
  | 0, name, r => (.error (.recursive r.inProgress name), r)
  | depth + 1, name, r =>
    match Table.find? name r.resolved with
    | some shape => (.ok shape, r)
    | none =>
      match Table.find? name table with
      | none =>
        match ScalarKind.ofName? name with
        | some kind => (.ok (.scalar kind), r)
        | none => (.error (.unknown name), r)
      | some schema =>
        if name ∈ r.inProgress then (.error (.recursive r.inProgress name), r)
        else
          match expand (namedWithin table depth) schema (r.enter name) with
          | (.error e, r) => (.error e, r.leave)
          | (.ok shape, r) =>
            match shape.validate with
            | .error e => (.error (.invalid name e), r.leave)
            | .ok () => (.ok shape, r.leave.remember name shape)

/-- The shape of a name. -/
def named (table : Table Schema) (name : String) : Resolving Shape :=
  namedWithin table (table.length + 1) name

/-- The shapes of names, each resolved after the ones before it. -/
def all (table : Table Schema) : List String → Resolving (Table Shape)
  | [] => .done []
  | name :: rest =>
    (named table name).andThen fun shape =>
      (all table rest).andThen fun shapes => .done ((name, shape) :: shapes)

end Resolver

end WireParity
