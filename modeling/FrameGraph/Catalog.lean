import FrameGraph.World.Create

/-!
# Catalogs

The types that a script can use: node types, scope types, and plugins, which are scope types that
are instantiated once, under their own name, wherever the catalog is put. No two entries of any sort
have one name, so putting a catalog into a fresh world never meets a name that is taken.
-/
namespace FrameGraph

/-- The types that a script can use, each sort in the order of registration. -/
structure Catalog where
  nodeTypes : List NodeType
  scopeTypes : List ScopeType
  plugins : List ScopeType

inductive CatalogEntry where
  | nodeType (type : NodeType)
  | scopeType (type : ScopeType)
  | plugin (type : ScopeType)

namespace CatalogEntry

def name : CatalogEntry → String
  | nodeType t => t.name
  | scopeType t | plugin t => t.name

/-- What is written down when the type is registered. -/
def registration : CatalogEntry → Event
  | nodeType t => .nodeTypeRegistered t.name
  | scopeType t => .scopeTypeRegistered t.name
  | plugin t => .pluginRegistered t.name

end CatalogEntry

/-- Why a type was not registered. -/
inductive CatalogError where
  | duplicate (name : String)
  | pluginParams (name : String) (count : Nat)
  deriving DecidableEq

def CatalogError.message : CatalogError → String
  | duplicate name => s!"duplicate delegate '{name}'"
  | pluginParams name count =>
    s!"plugin '{name}' declares {count} parameter(s); plugins take none"

namespace Catalog

def empty : Catalog := ⟨[], [], []⟩

def entries (c : Catalog) : List CatalogEntry :=
  c.nodeTypes.map .nodeType ++ c.scopeTypes.map .scopeType ++ c.plugins.map .plugin

def lookup? (c : Catalog) (name : String) : Option CatalogEntry :=
  c.entries.find? (·.name = name)

def size (c : Catalog) : Nat := c.nodeTypes.length + c.scopeTypes.length + c.plugins.length

def isEmpty (c : Catalog) : Bool := c.size = 0

def addNodeType (c : Catalog) (type : NodeType) : Except CatalogError Catalog :=
  if (c.lookup? type.name).isSome then .error (.duplicate type.name)
  else .ok { c with nodeTypes := c.nodeTypes ++ [type] }

def addScopeType (c : Catalog) (type : ScopeType) : Except CatalogError Catalog :=
  if (c.lookup? type.name).isSome then .error (.duplicate type.name)
  else .ok { c with scopeTypes := c.scopeTypes ++ [type] }

/-- Registers a plugin, which takes no parameters. -/
def addPlugin (c : Catalog) (type : ScopeType) : Except CatalogError Catalog :=
  if type.params.length ≠ 0 then .error (.pluginParams type.name type.params.length)
  else if (c.lookup? type.name).isSome then .error (.duplicate type.name)
  else .ok { c with plugins := c.plugins ++ [type] }

/-- A world on its way, with the errors met so far. -/
abbrev Populating := World × List WorldError

def installType (scope : ScopeId) (name : String) (type : Member) (p : Populating) : Populating :=
  match p.1.define scope name type with
  | (w, .ok ()) => (w, p.2)
  | (w, .error e) => (w, p.2 ++ [e])

/-- Instantiates a plugin in a scope under its name. -/
def installPlugin (scope : ScopeId) (type : ScopeType) (p : Populating) : Populating :=
  match p.1.makeScope scope type.name scope (defaults type.params) type with
  | (w, .ok _) => (w, p.2)
  | (w, .error e) => (w, p.2 ++ [e])

def installEntry (scope : ScopeId) (p : Populating) : CatalogEntry → Populating
  | .nodeType t => installType scope t.name (.nodeType t) p
  | .scopeType t => installType scope t.name (.scopeType t) p
  | .plugin t => installPlugin scope t p

/-- Puts all entries into a scope. An entry that fails is reported, and the others stay. -/
def populate (c : Catalog) (w : World) (scope : ScopeId) : World × List WorldError :=
  c.entries.foldl (installEntry scope) (w, [])

end Catalog

end FrameGraph
