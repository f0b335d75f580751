import WireSchema.Yaml.Token

/-!
# Nodes

The tree of a document, with aliases not yet followed.  Anchors are numbered in the order
in which they are written, because a name may be given again and an alias means the last
node of that name before it.  `Document.ofTokens?` reads exactly one document.
-/

namespace WireSchema.Yaml

inductive Node where
  | scalar (text : String) (plain : Bool) (tag : Option Tag)
  | alias (anchor : Nat)
  | sequence (items : List Node)
  | mapping (entries : List (Node × Node))

def Node.absent : Node := .scalar "~" true none

structure NodeReader where
  tokens : List Token
  /-- The anchors given so far by name, last one first. -/
  names : List (String × Nat) := []
  /-- The number of anchors given so far. -/
  anchors : Nat := 0
  /-- The anchored nodes that have been read. -/
  targets : List (Nat × Node) := []

abbrev NodeReader.Read := StateT NodeReader Option

namespace NodeReader

def peek : Read (Option Token) := return (← get).tokens.head?

def pass : Read Unit := modify fun r => { r with tokens := r.tokens.drop 1 }

/-- Pass over the next token if it is `t`, and tell whether it was. -/
def passIf (t : Token) : Read Bool := do
  if (← peek) == some t then
    pass
    return true
  else return false

def expect (t : Token) : Read Unit := do
  if !(← passIf t) then failure

def absent : Read Node := return .absent

def newAnchor (name : String) : Read Nat := do
  let r ← get
  set { r with names := (name, r.anchors) :: r.names, anchors := r.anchors + 1 }
  return r.anchors

/-- The anchor and the tag before a node, in either order. -/
def properties : Read (Option Nat × Option Tag) := do
  match ← peek with
  | some (.anchor name) =>
    pass
    let anchor ← newAnchor name
    match ← peek with
    | some (.tag tag) =>
      pass
      return (some anchor, some tag)
    | _ => return (some anchor, none)
  | some (.tag tag) =>
    pass
    match ← peek with
    | some (.anchor name) =>
      pass
      return (some (← newAnchor name), some tag)
    | _ => return (none, some tag)
  | _ => return (none, none)

def keep (anchor : Option Nat) (node : Node) : Read Node := do
  match anchor with
  | some n => modify fun r => { r with targets := (n, node) :: r.targets }
  | none => pure ()
  return node

def aliased (name : String) : Read Node := do
  pass
  match (← get).names.lookup name with
  | some anchor => return .alias anchor
  | none => failure

/-- After an anchor or a tag the node itself may be missing. -/
def empty (anchor : Option Nat) (tag : Option Tag) : Read Node := do
  if anchor.isNone && tag.isNone then failure
  keep anchor (.scalar "" true tag)

mutual

/-- A node.  A block collection may start here if `block`, and a sequence without
    indentation if `indentless`. -/
def node : Nat → Bool → Bool → Read Node
  | 0, _, _ => failure
  | fuel + 1, block, indentless => do
    if let some (.alias name) ← peek then
      aliased name
    else
      let (anchor, tag) ← properties
      match ← peek with
      | some .blockEntry =>
        if indentless then keep anchor (.sequence (← indentlessItems fuel))
          else empty anchor tag
      | some (.scalar text plain) =>
        pass
        keep anchor (.scalar text plain tag)
      | some .flowSequenceStart =>
        pass
        keep anchor (.sequence (← flowItems fuel true))
      | some .flowMappingStart =>
        pass
        keep anchor (.mapping (← flowEntries fuel true))
      | some .blockSequenceStart =>
        if block then
          pass
          keep anchor (.sequence (← blockItems fuel))
        else empty anchor tag
      | some .blockMappingStart =>
        if block then
          pass
          keep anchor (.mapping (← blockEntries fuel))
        else empty anchor tag
      | _ => empty anchor tag

def blockItems : Nat → Read (List Node)
  | 0 => failure
  | fuel + 1 => do
    if ← passIf .blockEnd then return []
    expect .blockEntry
    let item ←
      match ← peek with
      | some .blockEntry => absent
      | some .blockEnd => absent
      | _ => node fuel true false
    return item :: (← blockItems fuel)

/-- The items of a sequence at the column of the mapping around it. -/
def indentlessItems : Nat → Read (List Node)
  | 0 => failure
  | fuel + 1 => do
    if ← passIf .blockEntry then
      let item ←
        match ← peek with
        | some .blockEntry => absent
        | some .key => absent
        | some .value => absent
        | some .blockEnd => absent
        | _ => node fuel true false
      return item :: (← indentlessItems fuel)
    else return []

def blockMember : Nat → Read Node
  | 0 => failure
  | fuel + 1 => do
    match ← peek with
    | some .key => absent
    | some .value => absent
    | some .blockEnd => absent
    | _ => node fuel true true

def blockEntries : Nat → Read (List (Node × Node))
  | 0 => failure
  | fuel + 1 => do
    if ← passIf .blockEnd then return []
    let key ←
      if ← passIf .key then blockMember fuel
      else if (← peek) == some .value then absent
      else failure
    let value ← if ← passIf .value then blockMember fuel else absent
    return (key, value) :: (← blockEntries fuel)

/-- The items of a flow sequence; before all but the first stands a comma.  A key makes an
    item a mapping of one entry. -/
def flowItems : Nat → Bool → Read (List Node)
  | 0, _ => failure
  | fuel + 1, first => do
    if ← passIf .flowSequenceEnd then return []
    if !first then expect .flowEntry
    if ← passIf .flowSequenceEnd then return []
    let item ←
      if ← passIf .key then
        let key ←
          match ← peek with
          | some .value => pass; absent
          | some .flowEntry => pass; absent
          | some .flowSequenceEnd => pass; absent
          | _ => node fuel false false
        let value ←
          if ← passIf .value then
            match ← peek with
            | some .flowEntry => absent
            | some .flowSequenceEnd => absent
            | _ => node fuel false false
          else absent
        pure (Node.mapping [(key, value)])
      else node fuel false false
    return item :: (← flowItems fuel false)

def flowEntries : Nat → Bool → Read (List (Node × Node))
  | 0, _ => failure
  | fuel + 1, first => do
    if ← passIf .flowMappingEnd then return []
    if !first then expect .flowEntry
    if ← passIf .flowMappingEnd then return []
    let entry ←
      if ← passIf .key then
        let key ←
          match ← peek with
          | some .value => absent
          | some .flowEntry => absent
          | some .flowMappingEnd => absent
          | _ => node fuel false false
        pure (key, ← flowValue fuel)
      else if (← peek) == some .value then
        let key ← absent
        pure (key, ← flowValue fuel)
      else
        let key ← node fuel false false
        pure (key, ← absent)
    return entry :: (← flowEntries fuel false)

def flowValue : Nat → Read Node
  | 0 => failure
  | fuel + 1 => do
    if ← passIf .value then
      match ← peek with
      | some .flowEntry => absent
      | some .flowMappingEnd => absent
      | _ => node fuel false false
    else absent

end

def passDirectives (r : NodeReader) : NodeReader :=
  { r with tokens := r.tokens.dropWhile (· == .directive) }

/-- The node of a document that starts with a mark; it may be missing. -/
def markedContent (fuel : Nat) : Read Node := do
  modify passDirectives
  expect .documentStart
  match ← peek with
  | none => absent
  | some .directive => absent
  | some .documentStart => absent
  | some .documentEnd => absent
  | _ => node fuel true false

def content (fuel : Nat) : Read Node := do
  match ← peek with
  | none => failure
  | some .directive => markedContent fuel
  | some .documentStart => markedContent fuel
  | _ => node fuel true false

end NodeReader

structure Document where
  root : Node
  targets : List (Nat × Node)

def Document.follow? (doc : Document) : Node → Option Node
  | .alias anchor => doc.targets.lookup anchor
  | node => some node

/-- The document that the tokens make up, if they are one document and no more.  Reading a
    node takes a token for every two steps down. -/
def Document.ofTokens? (tokens : List Token) : Option Document :=
  match (NodeReader.content (2 * tokens.length + 2)).run { tokens := tokens } with
  | none => none
  | some (root, r) =>
    if (r.tokens.dropWhile (· == .documentEnd)).isEmpty
      then some ⟨root, r.targets⟩ else none

end WireSchema.Yaml
