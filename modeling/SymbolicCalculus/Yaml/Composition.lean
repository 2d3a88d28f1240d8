import SymbolicCalculus.Yaml.Layout
import SymbolicCalculus.Yaml.Node

/-! # Composing nodes

The tokens of a stream make up a single document. Nodes are composed by recursive descent, within a
budget of nested calls that the number of tokens bounds. An alias stands for the node with the
anchor of that name that was met last.
-/
namespace SymbolicCalculus.Yaml

/-- The tokens still to be read, and the anchors so far. -/
structure Reading where
  tokens : List Token
  /-- The anchors by name, numbered as they were met, the last one first. -/
  anchors : List (String × Nat) := []
  /-- The nodes of the anchors that are complete. -/
  nodes : List (Nat × Node) := []

structure Properties where
  anchor : Option Nat := none
  tag : Option Tag := none

inductive Place
  | flow
  | block
  /-- At a key or value in a block, where a sequence need not be indented. -/
  | entry
deriving DecidableEq

namespace Reading

def skip (r : Reading) : Reading := { r with tokens := r.tokens.tail }

def isAt (ts : List Token) (r : Reading) : Bool := r.tokens.head?.any (ts.contains ·)

/-- Numbers an anchor, and passes its token. -/
def anchor (name : String) (r : Reading) : Nat × Reading :=
  (r.anchors.length, { r.skip with anchors := (name, r.anchors.length) :: r.anchors })

/-- Remembers the node of an anchor. -/
def record (p : Properties) (node : Node) (r : Reading) : Reading :=
  { r with nodes := (p.anchor.map (·, node)).toList ++ r.nodes }

def resolve? (name : String) (r : Reading) : Option Node :=
  (r.anchors.lookup name).map fun n => (r.nodes.lookup n).getD .enclosing

/-- Passes the anchor and the tag of a node, in either order. -/
def properties (r : Reading) : Properties × Reading :=
  match r.tokens with
  | .anchor name :: .tag tag :: _ =>
    let (n, r) := r.anchor name
    ({ anchor := some n, tag := some tag }, r.skip)
  | .anchor name :: _ =>
    let (n, r) := r.anchor name
    ({ anchor := some n }, r)
  | .tag tag :: .anchor name :: _ =>
    let (n, r) := r.skip.anchor name
    ({ anchor := some n, tag := some tag }, r)
  | .tag tag :: _ => ({ tag := some tag }, r.skip)
  | _ => ({}, r)

end Reading

/-- The node of properties that nothing follows. -/
def Properties.alone? (p : Properties) (r : Reading) : Option (Node × Reading) :=
  if p.anchor.isNone && p.tag.isNone then none else some (.scalar (.ofTag true p.tag) "", r)

mutual

def node? : Nat → Place → Reading → Option (Node × Reading)
  | 0, _, _ => none
  | budget + 1, place, r =>
    match r.tokens with
    | .alias name :: _ => (r.resolve? name).map (·, r.skip)
    | _ =>
      let (p, r) := r.properties
      (content? budget place p r).map fun (node, r) => (node, r.record p node)

/-- What comes after the properties of a node. -/
def content? : Nat → Place → Properties → Reading → Option (Node × Reading)
  | 0, _, _, _ => none
  | budget + 1, place, p, r =>
    match r.tokens with
    | .scalar plain text :: _ => some (.scalar (.ofTag plain p.tag) text, r.skip)
    | .bracketOpen :: _ => (flowItems? budget true r.skip).map fun (xs, r) => (.sequence xs, r)
    | .braceOpen :: _ => (flowEntries? budget true r.skip).map fun (xs, r) => (.mapping xs, r)
    | .sequenceStart :: _ =>
      if place = .flow then p.alone? r
      else (blockItems? budget r.skip).map fun (xs, r) => (.sequence xs, r)
    | .mappingStart :: _ =>
      if place = .flow then p.alone? r
      else (blockEntries? budget r.skip).map fun (xs, r) => (.mapping xs, r)
    | .dash :: _ =>
      if place = .entry then (looseItems? budget r).map fun (xs, r) => (.sequence xs, r)
      else p.alone? r
    | _ => p.alone? r

/-- The node after a mark; absent if the mark is missing, or if one of the given tokens follows. -/
def part? : Nat → Place → Token → List Token → Reading → Option (Node × Reading)
  | 0, _, _, _, _ => none
  | budget + 1, place, mark, enders, r =>
    if !r.isAt [mark] then some (.absent, r)
    else if r.skip.isAt enders then some (.absent, r.skip)
    else node? budget place r.skip

def blockItems? : Nat → Reading → Option (List Node × Reading)
  | 0, _ => none
  | budget + 1, r =>
    if r.isAt [.blockEnd] then some ([], r.skip)
    else if !r.isAt [.dash] then none
    else do
      let (item, r) ← part? budget .block .dash [.dash, .blockEnd] r
      let (items, r) ← blockItems? budget r
      return (item :: items, r)

/-- The items of a sequence that is not indented, which ends where no dash follows. -/
def looseItems? : Nat → Reading → Option (List Node × Reading)
  | 0, _ => none
  | budget + 1, r =>
    if !r.isAt [.dash] then some ([], r)
    else do
      let (item, r) ← part? budget .block .dash [.dash, .key, .value, .blockEnd] r
      let (items, r) ← looseItems? budget r
      return (item :: items, r)

def blockEntries? : Nat → Reading → Option (List (Node × Node) × Reading)
  | 0, _ => none
  | budget + 1, r =>
    if r.isAt [.blockEnd] then some ([], r.skip)
    else if !r.isAt [.key, .value] then none
    else do
      let (key, r) ← part? budget .entry .key [.key, .value, .blockEnd] r
      let (value, r) ← part? budget .entry .value [.key, .value, .blockEnd] r
      let (entries, r) ← blockEntries? budget r
      return ((key, value) :: entries, r)

/-- The items up to the closing bracket, with a comma before each but the first. A key with its
value is a mapping of its own. -/
def flowItems? : Nat → Bool → Reading → Option (List Node × Reading)
  | 0, _, _ => none
  | budget + 1, first, r => do
    if r.isAt [.bracketClose] then return ([], r.skip)
    if !first && !r.isAt [.comma] then none
    let r := if first then r else r.skip
    if r.isAt [.bracketClose] then return ([], r.skip)
    let (item, r) ← if r.isAt [.key] then flowPair? budget r else node? budget .flow r
    let (items, r) ← flowItems? budget false r
    return (item :: items, r)

/-- A key with its value inside brackets. What ends a key that is absent is passed with it. -/
def flowPair? : Nat → Reading → Option (Node × Reading)
  | 0, _ => none
  | budget + 1, r => do
    let enders := [.value, .comma, .bracketClose]
    let isAbsent := r.skip.isAt enders
    let (key, r) ← part? budget .flow .key enders r
    let r := if isAbsent then r.skip else r
    let (value, r) ← part? budget .flow .value [.comma, .bracketClose] r
    return (.mapping [(key, value)], r)

/-- The entries up to the closing brace, with a comma before each but the first. -/
def flowEntries? : Nat → Bool → Reading → Option (List (Node × Node) × Reading)
  | 0, _, _ => none
  | budget + 1, first, r => do
    if r.isAt [.braceClose] then return ([], r.skip)
    if !first && !r.isAt [.comma] then none
    let r := if first then r else r.skip
    if r.isAt [.braceClose] then return ([], r.skip)
    let (entry, r) ← flowEntry? budget r
    let (entries, r) ← flowEntries? budget false r
    return (entry :: entries, r)

/-- A key with its value inside braces. A node that is not marked as a key has none. -/
def flowEntry? : Nat → Reading → Option ((Node × Node) × Reading)
  | 0, _ => none
  | budget + 1, r => do
    if r.isAt [.key, .value] then
      let (key, r) ← part? budget .flow .key [.value, .comma, .braceClose] r
      let (value, r) ← part? budget .flow .value [.comma, .braceClose] r
      return ((key, value), r)
    else
      let (key, r) ← node? budget .flow r
      return ((key, .absent), r)

end

/-- The node of the document that the tokens start with. Directives need a marker behind them, and
behind the marker there may be nothing. -/
def document? (tokens : List Token) : Option (Node × Reading) :=
  let budget := 4 * tokens.length + 8
  match tokens with
  | [] => none
  | .directive :: _ | .documentStart :: _ =>
    match tokens.dropWhile (· = .directive) with
    | .documentStart :: tokens =>
      let r : Reading := { tokens }
      if tokens.isEmpty || r.isAt [.directive, .documentStart, .documentEnd] then some (.absent, r)
      else node? budget .block r
    | _ => none
  | _ => node? budget .block { tokens }

/-- The node of a stream with a single document. -/
def read? (stream : String) : Option Node :=
  (tokens? stream).bind fun tokens =>
    (document? tokens).bind fun (node, r) =>
      if r.tokens.all (· = .documentEnd) then some node else none

end SymbolicCalculus.Yaml
