import RunTable.Field
import RunTable.Pipeline.Run

/-!
# Stores

A store keeps documents in named collections, each in the order in which its documents arrived. A
collection exists as soon as something is put into it, and reading one that does not exist finds
nothing.
-/

namespace RunTable

structure Store where
  /-- The collections in the order in which they were first written to. -/
  collections : List (String × List Json) := []

namespace Store

def empty : Store := {}

def documents (store : Store) (collection : String) : List Json :=
  (store.collections.lookup collection).getD []

def update (store : Store) (collection : String) (documents : List Json) : Store :=
  { collections := Table.put collection documents store.collections }

/-- Adds a document behind those of a collection. -/
def insert (store : Store) (collection : String) (doc : Json) : Store :=
  store.update collection (store.documents collection ++ [doc])

/-- Whether a document is identified by a value. -/
def identifies (id doc : Json) : Bool := (Document.get? Field.id doc).any (Json.equal · id)

/-- Replaces the first document that an identifier names, or adds one behind the others. -/
def replaceFirst (id doc : Json) : List Json → List Json
  | [] => [doc]
  | old :: docs => if identifies id old then doc :: docs else old :: replaceFirst id doc docs

/-- Replaces the document of a collection that an identifier names, or adds it. -/
def upsert (store : Store) (collection : String) (id doc : Json) : Store :=
  store.update collection (replaceFirst id doc (store.documents collection))

def size (store : Store) (collection : String) : Nat := (store.documents collection).length

def isEmpty (store : Store) : Bool := store.collections.all fun collection => collection.2.isEmpty

/-- The rows that a pipeline makes of a collection. -/
def run (store : Store) (collection : String) (stages : List Stage) :
    Except EvalError (List Json) :=
  Pipeline.run store.documents stages (store.documents collection)

/-- The values that a document contributes to those of a field: the items of an array, or the value
itself. -/
def fieldValues (field : String) (doc : Json) : List Json :=
  match Document.get? field doc with
  | some (.arr items) => items
  | some value => [value]
  | none => []

/-- Adds a value to a list, unless an equal one is there. -/
def addNew (values : List Json) (value : Json) : List Json :=
  if values.any (Json.equal · value) then values else values ++ [value]

/-- The values of a field in the documents that pass a filter, in order, equal ones once. Of equal
values the first one is kept. -/
def distinct (store : Store) (collection field : String) (filter : Option Json) :
    Except EvalError (List Json) := do
  let docs := store.documents collection
  let passing ← filter.elim (pure docs) fun f => selectRows f docs
  let values := (passing.flatMap (fieldValues field)).foldl addNew []
  return values.mergeSort fun a b => a.cmp b != .gt

theorem documents_insert_self (store : Store) (collection : String) (doc : Json) :
    (store.insert collection doc).documents collection = store.documents collection ++ [doc] := by
  simp [insert, update, documents]

theorem documents_insert_of_ne {collection other : String} (h : other ≠ collection) (store : Store)
    (doc : Json) : (store.insert collection doc).documents other = store.documents other := by
  simp [insert, update, documents, Table.lookup_put_of_ne h]

theorem documents_upsert (store : Store) (collection : String) (id doc : Json) :
    (store.upsert collection id doc).documents collection
      = replaceFirst id doc (store.documents collection) := by
  rw [upsert, update, documents, Table.lookup_put_self]
  rfl

section

variable {id doc run : Json} {docs before after : List Json}

theorem replaceFirst_append (hbefore : ∀ other ∈ before, identifies id other = false)
    (hrun : identifies id run = true) :
    replaceFirst id doc (before ++ run :: after) = before ++ doc :: after := by
  induction before with
  | nil => exact if_pos hrun
  | cons other before ih =>
      rw [List.cons_append, replaceFirst, hbefore other List.mem_cons_self,
        if_neg Bool.false_ne_true, ih fun o ho => hbefore o (List.mem_cons_of_mem _ ho)]
      rfl

theorem replaceFirst_of_none (h : ∀ other ∈ docs, identifies id other = false) :
    replaceFirst id doc docs = docs ++ [doc] := by
  induction docs with
  | nil => rfl
  | cons other docs ih =>
      rw [replaceFirst, h other List.mem_cons_self, if_neg Bool.false_ne_true,
        ih fun o ho => h o (List.mem_cons_of_mem _ ho)]
      rfl

end

end Store

end RunTable
