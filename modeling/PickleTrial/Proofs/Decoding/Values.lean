import PickleTrial.Proofs.Decoding.Containers

/-! What plans leave on the stack of the machine: the value that the node is read as, if the nodes
within leave theirs. -/

namespace PickleTrial

open Machine (Value Object Entry)

namespace Stage

variable {graph : Graph} {protocol : Protocol} {write : NodeId → Trace → Trace.Outcome}

/-! ## Keys of nodes -/

/-- A key that is that of a node with a slot, if there is one. -/
def NodeKey (graph : Graph) (key : Option MemoKey) : Prop :=
  ∀ known, key = some known → ∃ id node, known = .node id ∧ graph.node? id = some node ∧
    node.takesSlot

private theorem nodeKey_none (graph : Graph) : NodeKey graph none := by
  intro known same
  cases same

private theorem nodeKey_own {id : NodeId} {node : Node} (present : graph.node? id = some node)
    (takesSlot : node.takesSlot) : NodeKey graph (some (.node id)) := by
  intro known same
  cases same
  exact ⟨id, node, rfl, present, takesSlot⟩

/-- A product that is what the node is read as. -/
private theorem fits_own {product : Product graph protocol} {id : NodeId} {node : Node}
    (present : graph.node? id = some node) (takesSlot : node.takesSlot)
    (shows : ∀ {stage object}, product.Is stage object → ∃ values,
      List.Forall₂ (Denotes graph protocol stage) node.children values ∧
        node.object? protocol values = some object) :
    product.Fits (some (.node id)) := by
  intro known same
  cases same
  refine ⟨⟨node, present, takesSlot⟩, fun is => ?_⟩
  rcases shows is with ⟨values, denote, equal⟩
  exact ⟨node, values, present, takesSlot, denote, equal⟩

private theorem fits_leaf {id : NodeId} {node : Node} {object : Object}
    (present : graph.node? id = some node) (takesSlot : node.takesSlot)
    (leaf : node.children = []) (equal : node.object? protocol [] = some object) :
    (Product.exactly object : Product graph protocol).Fits (some (.node id)) :=
  fits_own present takesSlot fun is => by
    cases is
    exact ⟨[], by rw [leaf]; exact .nil, equal⟩

private theorem holdAll_denotes {ids : List NodeId} {stage : Stage} {values : List Value} :
    Content.HoldAll (ids.map (Content.denotes graph protocol)) stage values ↔
      List.Forall₂ (Denotes graph protocol stage) ids values :=
  List.forall₂_map_left_iff

/-! ## Containers -/

private theorem extending_append : Extending Container.list id 1 .append := by
  intro machine values below counted whole
  change machine.extend? Object.append? (Machine.takeValues? 1 machine.stack) = _
  rw [whole, ← counted]
  exact congrArg _ (Machine.takeValues?_pushAll values below)

private theorem extending_appends (count : Nat) :
    Extending Container.list (.mark :: ·) count .appends := by
  intro machine values below _ whole
  change machine.extend? Object.append? (Machine.takeToMark? machine.stack) = _
  rw [whole]
  exact congrArg _ (Machine.takeToMark?_pushAll values below)

private theorem extending_setItem : Extending Container.dict id 2 .setItem := by
  intro machine values below counted whole
  change machine.extend? Object.setItems? (Machine.takeValues? 2 machine.stack) = _
  rw [whole, ← counted]
  exact congrArg _ (Machine.takeValues?_pushAll values below)

private theorem extending_setItems (count : Nat) :
    Extending Container.dict (.mark :: ·) count .setItems := by
  intro machine values below _ whole
  change machine.extend? Object.setItems? (Machine.takeToMark? machine.stack) = _
  rw [whole]
  exact congrArg _ (Machine.takeToMark?_pushAll values below)

private theorem extending_addItems (count : Nat) :
    Extending Container.set (.mark :: ·) count .addItems := by
  intro machine values below _ whole
  change machine.extend? Object.addItems? (Machine.takeToMark? machine.stack) = _
  rw [whole]
  exact congrArg _ (Machine.takeToMark?_pushAll values below)

private theorem adds_list : Adds Container.list (some .append) .appends where
  oneByOne := by
    intro opcode same
    cases same
    exact extending_append
  together := extending_appends

private theorem adds_dict : Adds Container.dict (some .setItem) .setItems where
  oneByOne := by
    intro opcode same
    cases same
    exact extending_setItem
  together := extending_setItems

private theorem adds_set : Adds Container.set none .addItems where
  oneByOne := by
    intro opcode same
    cases same
  together := extending_addItems

/-- An empty container: made of nothing behind a mark at protocol 0, and else by an opcode of its
own. -/
private theorem leads_empty {container : Container} {object : Object}
    (empty : container.make? [] = some object) {old new : Opcode}
    (byMark : ∀ machine : Machine, machine.step? old =
      machine.collect? container.make? (Machine.takeToMark? machine.stack))
    (created : Machine.created? new = some object) {key : Option MemoKey}
    (ofNode : NodeKey graph key) (start : Stage) (stack : List Entry) :
    Leads graph protocol write
      (Above start stack ([] : List (Content graph protocol)))
      ((if protocol.version = 0 then [.op .mark, .op old] else [.op new]) ++ [.remember key])
      (Opened container start stack key ([] : List (Content graph protocol))) := by
  split
  · refine leads_mark.cons (leads_open empty ofNode fun {stage} above => ?_)
    rcases above with ⟨_, since, whole, hold⟩
    cases hold
    refine ⟨since, ?_⟩
    rw [byMark, whole]
    exact congrArg (Option.map _) empty
  · apply leads_open empty ofNode
    intro stage above
    rcases above with ⟨_, since, whole, hold⟩
    cases hold
    refine ⟨since, ?_⟩
    have same : stage.machine.stack = stack := whole
    rw [Machine.step?_created created, ← same]

private theorem puts_list {items : List (Item graph protocol)}
    (fills : Fills graph protocol write Container.list items) {key : Option MemoKey}
    (ofNode : NodeKey graph key) (fits : (Container.list.of (contentsOf items)).Fits key) :
    Puts graph protocol write [(Container.list.of (contentsOf items)).keyed key]
      (protocol.list (items.map Prod.snd) key) :=
  .of_leads fun start => by
    let begun : List (Item graph protocol) := items.map fun item => (item.1, .split :: item.2)
    have fillsBegun : Fills graph protocol write Container.list begun := by
      intro item listed
      rcases List.mem_map.1 listed with ⟨item, member, rfl⟩
      have parts := fills item member
      exact ⟨puts_split.append parts.1, parts.2⟩
    have contents : contentsOf begun = contentsOf items := by
      simp [begun, contentsOf, List.flatMap_map]
    have steps : (items.map Prod.snd).map (Step.split :: ·) = begun.map Prod.snd := by
      simp [begun]
    rw [← contents] at fits ⊢
    rw [Protocol.list, steps]
    have empty : Leads graph protocol write
        (Above start start.machine.stack ([] : List (Content graph protocol)))
        ((if protocol.version = 0 then [.op .mark, .op .list] else [.op .emptyList]) ++
          [.remember key])
        (Opened Container.list start start.machine.stack key
          ([] : List (Content graph protocol))) :=
      leads_empty rfl (fun _ => rfl) rfl ofNode start _
    exact (empty.append (leads_additions adds_list fillsBegun)).weaken (Opened.close fits)

private theorem puts_dict
    (nodes : ∀ id, Puts graph protocol write [.denotes graph protocol id] [.node id])
    {entries : List (NodeId × NodeId)} {key : Option MemoKey} (ofNode : NodeKey graph key)
    (fits : (Container.dict.of ((Node.dict entries).children.map
      (Content.denotes graph protocol))).Fits key) :
    Puts graph protocol write
      [(Container.dict.of ((Node.dict entries).children.map
        (Content.denotes graph protocol))).keyed key]
      (protocol.dict entries key) :=
  .of_leads fun start => by
    let items : List (Item graph protocol) := entries.map fun entry =>
      ([.denotes graph protocol entry.1, .denotes graph protocol entry.2],
        [.node entry.1, .node entry.2])
    have fills : Fills graph protocol write Container.dict items := by
      intro item listed
      rcases List.mem_map.1 listed with ⟨entry, -, rfl⟩
      refine ⟨(nodes entry.1).append (nodes entry.2), rfl, ?_⟩
      simp [Content.firm_denotes]
    have contents : contentsOf items =
        (Node.dict entries).children.map (Content.denotes graph protocol) := by
      simp [items, contentsOf, Node.children, List.flatMap_map, List.map_flatMap]
    have steps : (entries.map fun entry => [Step.node entry.1, .node entry.2]) =
        items.map Prod.snd := by
      simp [items]
    have empty : Leads graph protocol write
        (Above start start.machine.stack ([] : List (Content graph protocol)))
        ((if protocol.version = 0 then [.op .mark, .op .dict] else [.op .emptyDict]) ++
          [.remember key])
        (Opened Container.dict start start.machine.stack key
          ([] : List (Content graph protocol))) :=
      leads_empty rfl (fun _ => rfl) rfl ofNode start _
    rw [← contents] at fits ⊢
    rw [Protocol.dict, steps]
    exact (empty.append (leads_additions adds_dict fills)).weaken (Opened.close fits)

def nodeItems (graph : Graph) (protocol : Protocol) (ids : List NodeId) :
    List (Item graph protocol) :=
  ids.map fun id => ([.denotes graph protocol id], [.node id])

private theorem contentsOf_nodeItems (ids : List NodeId) :
    contentsOf (nodeItems graph protocol ids) = ids.map (Content.denotes graph protocol) := by
  induction ids with
  | nil => rfl
  | cons id rest induction => exact congrArg (_ :: ·) induction

private theorem steps_nodeItems (graph : Graph) (protocol : Protocol) (ids : List NodeId) :
    (nodeItems graph protocol ids).map Prod.snd = ids.map fun id => [Step.node id] := by
  simp [nodeItems]

private theorem fills_nodeItems {container : Container} (single : container.group = 1)
    (nodes : ∀ id, Puts graph protocol write [.denotes graph protocol id] [.node id])
    (ids : List NodeId) :
    Fills graph protocol write container (nodeItems graph protocol ids) := by
  intro item listed
  rcases List.mem_map.1 listed with ⟨id, -, rfl⟩
  exact ⟨nodes id, single.symm, by simp [Content.firm_denotes]⟩

private theorem calls_set (contents : List (Content graph protocol)) :
    Calls .set [(Container.list.of contents).keyed none] (Container.set.of contents) := by
  intro stage values hold
  rcases hold with _ | ⟨⟨⟨object, found, items, made, holdItems⟩, -⟩, _ | _⟩
  cases made
  refine ⟨.set items, ?_, items, rfl, holdItems⟩
  simp [Machine.call?, Machine.listOf?, found, Object.list?]

private theorem puts_set
    (nodes : ∀ id, Puts graph protocol write [.denotes graph protocol id] [.node id])
    {items : List NodeId} {key : Option MemoKey} (ofNode : NodeKey graph key)
    (fits : (Container.set.of (items.map (Content.denotes graph protocol))).Fits key) :
    Puts graph protocol write
      [(Container.set.of (items.map (Content.denotes graph protocol))).keyed key]
      (protocol.set items key) := by
  rw [Protocol.set]
  rw [← contentsOf_nodeItems] at fits ⊢
  rw [← steps_nodeItems graph protocol]
  split
  · refine .of_leads fun start => ?_
    have empty : Leads graph protocol write
        (Above start start.machine.stack ([] : List (Content graph protocol)))
        [.op .emptySet, .remember key]
        (Opened Container.set start start.machine.stack key
          ([] : List (Content graph protocol))) := by
      apply leads_open rfl ofNode
      intro stage above
      rcases above with ⟨_, since, whole, hold⟩
      cases hold
      have same : stage.machine.stack = start.machine.stack := whole
      refine ⟨since, ?_⟩
      rw [Machine.step?_created rfl, ← same]
    exact (empty.append (leads_additions adds_set (fills_nodeItems rfl nodes items))).weaken
      (Opened.close fits)
  · have listed := puts_list (fills_nodeItems rfl nodes items) (nodeKey_none graph)
      (Product.fits_none _)
    exact puts_call (calls_set _) (.cons listed .nil) fits

/-! ## Byte strings -/

theorem latin1?_latin1 (payload : Bytes) :
    Machine.latin1? (Quoted.latin1 payload) = some payload := by
  have narrow : (Quoted.latin1 payload).all fun character => character.toNat < 256 := by
    apply List.all_eq_true.2
    intro character member
    rcases List.mem_map.1 member with ⟨byte, -, rfl⟩
    rw [LineEscaped.toNat_ofNat_toNat, decide_eq_true_eq]
    exact byte.toNat_lt
  have back : LineEscaped.ascii (Quoted.latin1 payload) = payload := by
    simp [LineEscaped.ascii, Quoted.latin1, Function.comp_def, LineEscaped.toNat_ofNat_toNat]
  rw [Machine.latin1?, if_pos narrow, back]

private theorem calls_bytes_nil :
    Calls .bytes [] (Product.exactly (.bytes []) : Product graph protocol) := by
  intro stage values hold
  cases hold
  exact ⟨_, rfl, rfl⟩

/-- Below protocol 3 a byte string is a text encoded. -/
private theorem calls_encodeText (payload : Bytes) :
    Calls .encodeText [.text (String.ofList (Quoted.latin1 payload)), .text "latin1"]
      (Product.exactly (.bytes payload) : Product graph protocol) := by
  intro stage values hold
  rcases hold with _ | ⟨content, _ | ⟨encoding, _ | _⟩⟩
  have narrow : Machine.latin1? (String.ofList (Quoted.latin1 payload)).toList = some payload := by
    rw [String.toList_ofList, latin1?_latin1]
  exact ⟨_, Machine.call?_encodeText (Content.textOf? content) (Content.textOf? encoding) narrow,
    rfl⟩

private theorem puts_bytes {payload : Bytes} {key : Option MemoKey}
    (fits : (Product.exactly (.bytes payload) : Product graph protocol).Fits key) :
    Puts graph protocol write [(Product.exactly (.bytes payload)).keyed key]
      (protocol.bytes payload key) := by
  rw [Protocol.bytes]
  split
  · exact puts_created (Machine.created?_bytesOpcode protocol payload) fits
  · split
    · rename_i empty
      rcases List.isEmpty_iff.1 empty with rfl
      exact puts_call calls_bytes_nil .nil fits
    · exact puts_call (calls_encodeText payload)
        (.cons (puts_freshText _) (.cons (puts_sharedText _) .nil)) fits

def Content.bytes (payload : Bytes) : Content graph protocol :=
  (Product.exactly (.bytes payload)).content

theorem Content.bytesOf? {payload : Bytes} {stage : Stage} {value : Value}
    (holds : (Content.bytes payload : Content graph protocol).Holds stage value) :
    Machine.bytesOf? stage.machine.heap value = some payload := by
  rcases holds with ⟨_, found, rfl⟩
  rw [Machine.bytesOf?, found]
  rfl

private theorem puts_freshBytes (payload : Bytes) :
    Puts graph protocol write [Content.bytes payload] (protocol.bytes payload none) :=
  (puts_bytes (Product.fits_none _)).imp fun holds => holds.1

private theorem calls_byteArray (payload : Bytes) :
    Calls .byteArray [.bytes payload]
      (Product.exactly (.byteArray payload) : Product graph protocol) := by
  intro stage values hold
  rcases hold with _ | ⟨content, _ | _⟩
  refine ⟨_, ?_, rfl⟩
  simp [Machine.call?, Content.bytesOf? content]

private theorem calls_byteArray_nil :
    Calls .byteArray [] (Product.exactly (.byteArray []) : Product graph protocol) := by
  intro stage values hold
  cases hold
  exact ⟨_, rfl, rfl⟩

private theorem puts_byteArray {payload : Bytes} {key : Option MemoKey}
    (fits : (Product.exactly (.byteArray payload) : Product graph protocol).Fits key) :
    Puts graph protocol write [(Product.exactly (.byteArray payload)).keyed key]
      (protocol.byteArray payload key) := by
  rw [Protocol.byteArray]
  split
  · exact puts_created rfl fits
  · split
    · rename_i empty
      rcases List.isEmpty_iff.1 empty with rfl
      exact puts_call calls_byteArray_nil .nil fits
    · exact puts_call (calls_byteArray payload) (.cons (puts_freshBytes payload) .nil) fits

/-! ## Scalars -/

private theorem puts_int (value : Int) :
    Puts graph protocol write [Content.exactly (.int value)] (protocol.int value) :=
  puts_scalar (Machine.scalar?_intOpcode protocol value)

private theorem puts_float (number : Binary64) :
    Puts graph protocol write [Content.exactly (.float (number.through protocol))]
      (protocol.float number) :=
  puts_scalar (Machine.scalar?_floatOpcode protocol number)

/-! ## Arrays -/

def arrayItems (graph : Graph) (protocol : Protocol) : TypedArray → List (Item graph protocol)
  | .text characters =>
      characters.toList.map fun character =>
        ([.text (String.singleton character)], protocol.freshText (String.singleton character))
  | .integers code words =>
      words.map fun word => ([.exactly (.int (code.value word))], protocol.int (code.value word))
  | .singles items =>
      items.map fun item =>
        ([.exactly (.float (item.widen.through protocol))], protocol.float item.widen)
  | .doubles items =>
      items.map fun item => ([.exactly (.float (item.through protocol))], protocol.float item)

private theorem steps_arrayItems (graph : Graph) (protocol : Protocol) (value : TypedArray) :
    (arrayItems graph protocol value).map Prod.snd = protocol.arrayItems value := by
  cases value with
  | integers code words => simp [arrayItems, Protocol.arrayItems_integers]
  | _ => simp [arrayItems, Protocol.arrayItems]

private theorem fills_arrayItems (value : TypedArray) :
    Fills graph protocol write Container.list (arrayItems graph protocol value) := by
  intro item listed
  cases value with
  | text characters =>
      rcases List.mem_map.1 listed with ⟨character, -, rfl⟩
      exact ⟨puts_freshText _, rfl, by simp [Content.firm_text]⟩
  | integers code words =>
      rcases List.mem_map.1 listed with ⟨word, -, rfl⟩
      exact ⟨puts_int _, rfl, by simp [Content.firm_exactly]⟩
  | singles items =>
      rcases List.mem_map.1 listed with ⟨item, -, rfl⟩
      exact ⟨puts_float _, rfl, by simp [Content.firm_exactly]⟩
  | doubles items =>
      rcases List.mem_map.1 listed with ⟨item, -, rfl⟩
      exact ⟨puts_float _, rfl, by simp [Content.firm_exactly]⟩

private theorem mapM_of_holdAll {α β : Type} {items : List α} {item : α → Item graph protocol}
    {content : α → Content graph protocol} (single : ∀ part, (item part).1 = [content part])
    {read : Value → Option β} {result : α → β} {stage : Stage}
    (reads : ∀ part value, (content part).Holds stage value → read value = some (result part))
    {values : List Value}
    (hold : Content.HoldAll (contentsOf (items.map item)) stage values) :
    values.mapM read = some (items.map result) := by
  induction items generalizing values with
  | nil =>
      cases hold
      rfl
  | cons part rest induction =>
      rw [List.map_cons, contentsOf, List.flatMap_cons, single] at hold
      rcases hold with _ | ⟨holds, holdRest⟩
      rw [List.mapM_cons, reads part _ holds, induction holdRest]
      rfl

theorem characterOf? {character : Char} {stage : Stage} {value : Value}
    (holds : (Content.text (String.singleton character) : Content graph protocol).Holds stage
      value) :
    Machine.characterOf? stage.machine.heap value = some character := by
  rw [Machine.characterOf?, Content.textOf? holds]
  simp

private theorem arrayOf?_of_holdAll {value : TypedArray} {stage : Stage} {values : List Value}
    (hold : Content.HoldAll (contentsOf (arrayItems graph protocol value)) stage values) :
    Machine.arrayOf? stage.machine.heap value.letter values = some (value.through protocol) := by
  cases value with
  | text characters =>
      have read := mapM_of_holdAll (fun _ => rfl) (fun _ _ holds => characterOf? holds) hold
      simp [Machine.arrayOf?, TypedArray.letter, TypedArray.through, read]
  | integers code words =>
      have other := code.letter_notMem
      simp only [List.mem_cons, List.not_mem_nil, or_false, not_or] at other
      have reads (word : BitVec (8 * code.width)) (value : Value)
          (holds : (Content.exactly (.int (code.value word)) : Content graph protocol).Holds stage
            value) : (Machine.intOf? value).bind code.word? = some word := by
        cases holds
        exact code.word?_value word
      have read := mapM_of_holdAll (fun _ => rfl) reads hold
      rw [Machine.arrayOf?, TypedArray.letter, if_neg other.1, if_neg other.2.1,
        if_neg other.2.2, IntegerCode.ofLetter?_letter, Option.bind_some, read, Option.map_some,
        List.map_id']
      rfl
  | singles items =>
      have reads (item : Binary32) (value : Value)
          (holds : (Content.exactly (.float (item.widen.through protocol)) :
            Content graph protocol).Holds stage value) :
          (Machine.floatOf? value).bind Binary32.ofWide? = some (item.through protocol) := by
        cases holds
        exact Binary32.ofWide?_through protocol item
      have read := mapM_of_holdAll (fun _ => rfl) reads hold
      rw [Machine.arrayOf?, TypedArray.letter, if_neg (by decide), if_pos rfl, read,
        Option.map_some]
      rfl
  | doubles items =>
      have reads (item : Binary64) (value : Value)
          (holds : (Content.exactly (.float (item.through protocol)) :
            Content graph protocol).Holds stage value) :
          Machine.floatOf? value = some (item.through protocol) := by
        cases holds
        rfl
      have read := mapM_of_holdAll (fun _ => rfl) reads hold
      rw [Machine.arrayOf?, TypedArray.letter, if_neg (by decide), if_neg (by decide), if_pos rfl,
        read, Option.map_some]
      rfl

private theorem calls_array (value : TypedArray) :
    Calls .array [.text (String.singleton value.letter),
        (Container.list.of (contentsOf (arrayItems graph protocol value))).keyed none]
      (Product.exactly (.array (value.through protocol))) := by
  intro stage values hold
  rcases hold with _ | ⟨letter, _ | ⟨⟨⟨object, found, items, made, holdItems⟩, -⟩, _ | _⟩⟩
  cases made
  refine ⟨_, ?_, rfl⟩
  simp [Machine.call?, characterOf? letter, Machine.listOf?, found, Object.list?,
    arrayOf?_of_holdAll holdItems]

/-- From protocol 3 on an array is restored from its packed bytes. -/
private theorem calls_restoreArray (value : TypedArray) :
    Calls .restoreArray [.exactly (.callable .array), .text (String.singleton value.letter),
        .exactly (.int value.machineFormat), .bytes value.packed]
      (Product.exactly (.array value) : Product graph protocol) := by
  intro stage values hold
  rcases hold with _ | ⟨rfl, _ | ⟨letter, _ | ⟨rfl, _ | ⟨payload, _ | _⟩⟩⟩⟩
  refine ⟨_, ?_, rfl⟩
  simp [Machine.call?, characterOf? letter, Content.bytesOf? payload,
    TypedArray.ofPacked?_packed]

private theorem through_of_binary (binary : protocol.version ≠ 0) (value : TypedArray) :
    value.through protocol = value := by
  have single : Binary32.through protocol = id :=
    funext fun item => if_neg fun both => binary both.1
  have double : Binary64.through protocol = id :=
    funext fun item => if_neg fun both => binary both.1
  cases value with
  | singles items => simp [TypedArray.through, single]
  | doubles items => simp [TypedArray.through, double]
  | _ => rfl

private theorem puts_array {value : TypedArray} {key : Option MemoKey}
    (fits : (Product.exactly (.array (value.through protocol)) :
      Product graph protocol).Fits key) :
    Puts graph protocol write [(Product.exactly (.array (value.through protocol))).keyed key]
      (protocol.array value key) := by
  rw [Protocol.array_eq_call]
  split
  · rename_i recent
    rw [through_of_binary (by omega)] at fits ⊢
    exact puts_call (calls_restoreArray value) (.cons (puts_callable _) (.cons (puts_freshText _)
      (.cons (puts_int _) (.cons (puts_freshBytes _) .nil)))) fits
  · rw [← steps_arrayItems graph]
    exact puts_call (calls_array value) (.cons (puts_freshText _)
      (.cons (puts_list (fills_arrayItems value) (nodeKey_none graph) (Product.fits_none _))
        .nil)) fits

/-! ## Nodes -/

private theorem calls_complex (re im : Binary64) :
    Calls .complex [.exactly (.float re), .exactly (.float im)]
      (Product.exactly (.complex re im) : Product graph protocol) := by
  intro stage values hold
  rcases hold with _ | ⟨rfl, _ | ⟨rfl, _ | _⟩⟩
  exact ⟨_, rfl, rfl⟩

private theorem calls_duration (days seconds microseconds : Int) :
    Calls .duration
      [.exactly (.int days), .exactly (.int seconds), .exactly (.int microseconds)]
      (Product.exactly (.duration days seconds microseconds) : Product graph protocol) := by
  intro stage values hold
  rcases hold with _ | ⟨rfl, _ | ⟨rfl, _ | ⟨rfl, _ | _⟩⟩⟩
  exact ⟨_, rfl, rfl⟩

private theorem calls_decimal (text : String) :
    Calls .decimal [.text text] (Product.exactly (.decimal text) : Product graph protocol) := by
  intro stage values hold
  rcases hold with _ | ⟨content, _ | _⟩
  exact ⟨_, by simp [Machine.call?, Content.textOf? content], rfl⟩

theorem stateOf? {payload : Bytes} {length : Nat} (right : payload.length = length)
    {stage : Stage} {value : Value}
    (holds : (Content.bytes payload : Content graph protocol).Holds stage value) :
    Machine.stateOf? stage.machine.heap length value = some payload := by
  rw [Machine.stateOf?, Content.bytesOf? holds, Option.filter_some, if_pos (by simpa using right)]

private theorem calls_moment (value : Moment) :
    Calls .moment [.bytes value.packed]
      (Product.exactly (.moment value.packed) : Product graph protocol) := by
  intro stage values hold
  rcases hold with _ | ⟨content, _ | _⟩
  have right : value.packed.length = 10 := by simp [Moment.packed, Date.packed, Time.packed]
  exact ⟨_, by simp [Machine.call?, stateOf? right content], rfl⟩

private theorem calls_date (value : Date) :
    Calls .date [.bytes value.packed]
      (Product.exactly (.date value.packed) : Product graph protocol) := by
  intro stage values hold
  rcases hold with _ | ⟨content, _ | _⟩
  have right : value.packed.length = 4 := by simp [Date.packed]
  exact ⟨_, by simp [Machine.call?, stateOf? right content], rfl⟩

private theorem calls_time (value : Time) :
    Calls .time [.bytes value.packed]
      (Product.exactly (.time value.packed) : Product graph protocol) := by
  intro stage values hold
  rcases hold with _ | ⟨content, _ | _⟩
  have right : value.packed.length = 6 := by simp [Time.packed]
  exact ⟨_, by simp [Machine.call?, stateOf? right content], rfl⟩

private theorem Puts.scalar {steps : List Step} {value : Value}
    (puts : Puts graph protocol write [.exactly value] steps) {id : NodeId} {node : Node}
    (present : graph.node? id = some node) (takesNone : node.takesSlot = false)
    (equal : node.scalar? protocol = some value) :
    Puts graph protocol write [.denotes graph protocol id] steps :=
  puts.imp fun holds => by
    cases holds
    exact ⟨node, present, Or.inl ⟨takesNone, equal⟩⟩

private theorem Puts.own {steps : List Step} {product : Product graph protocol} {id : NodeId}
    (puts : Puts graph protocol write [product.keyed (some (.node id))] steps) :
    Puts graph protocol write [.denotes graph protocol id] steps :=
  puts.imp fun holds => holds.2 id rfl

private theorem puts_leafCall {callable : Callable} {contents : List (Content graph protocol)}
    {items : List (List Step)} (each : PutsEach graph protocol write contents items)
    {object : Object}
    (calls : Calls callable contents (Product.exactly object : Product graph protocol))
    {id : NodeId} {node : Node} (present : graph.node? id = some node)
    (takesSlot : node.takesSlot) (leaf : node.children = [])
    (equal : node.object? protocol [] = some object) :
    Puts graph protocol write [.denotes graph protocol id]
      (protocol.call callable items (some (.node id))) :=
  Puts.own (puts_call calls each (fits_leaf present takesSlot leaf equal))

private theorem puts_tuple
    (nodes : ∀ id, Puts graph protocol write [.denotes graph protocol id] [.node id])
    {id : NodeId} {items : List NodeId} (present : graph.node? id = some (.tuple items))
    (nonempty : items ≠ []) :
    Puts graph protocol write [.denotes graph protocol id]
      (protocol.tupleItems (items.map fun item => [.node item]) ++
        [.endTuple id items.length]) := by
  have each : PutsEach graph protocol write (items.map (Content.denotes graph protocol))
      (items.map fun item => [.node item]) := by
    rw [PutsEach, List.forall₂_map_left_iff, List.forall₂_map_right_iff]
    exact List.forall₂_same.2 fun id _ => nodes id
  have takesSlot : (Node.tuple items).takesSlot := by simpa [Node.takesSlot] using nonempty
  have fits : (tupleOf (items.map (Content.denotes graph protocol))).Fits (some (.node id)) :=
    fits_own present takesSlot fun is => by
      rcases is with ⟨values, made, hold⟩
      exact ⟨values, holdAll_denotes.1 hold, made⟩
  have some_ : items.map (Content.denotes graph protocol) ≠ [] := by simpa using nonempty
  refine .of_leads fun start => (leads_tupleItems each).append ?_
  have ended : Leads graph protocol write _ _
      (Above start start.machine.stack [.denotes graph protocol id]) :=
    leads_endTuple some_ (fits _ rfl)
  simpa only [List.length_map] using ended

/-- Every plan leaves what its node is read as if the nodes within do. -/
private theorem puts_plan
    (nodes : ∀ id, Puts graph protocol write [.denotes graph protocol id] [.node id])
    {id : NodeId} {node : Node} (present : graph.node? id = some node) {steps : List Step}
    (plan : protocol.plan id node = .ok steps) :
    Puts graph protocol write [.denotes graph protocol id] steps := by
  cases Protocol.hasPlan_of_plan plan with
  | none => exact (puts_scalar rfl).scalar present rfl rfl
  | bool value =>
      exact (puts_scalar (Machine.scalar?_boolOpcode protocol value)).scalar present rfl rfl
  | int value => exact (puts_int _).scalar present rfl rfl
  | @bigInt _ value read =>
      exact (puts_int value).scalar present rfl (congrArg (Option.map Machine.Value.int) read)
  | float value => exact (puts_float value).scalar present rfl rfl
  | text value =>
      exact Puts.own (puts_created (Machine.created?_textOpcode protocol value)
        (fits_leaf present rfl rfl rfl))
  | bytes value => exact Puts.own (puts_bytes (fits_leaf present rfl rfl rfl))
  | byteArray value => exact Puts.own (puts_byteArray (fits_leaf present rfl rfl rfl))
  | complex re im =>
      exact puts_leafCall (.cons (puts_float re) (.cons (puts_float im) .nil))
        (calls_complex _ _) present rfl rfl rfl
  | moment value =>
      exact puts_leafCall (.cons (puts_freshBytes _) .nil) (calls_moment value) present rfl rfl rfl
  | date value =>
      exact puts_leafCall (.cons (puts_freshBytes _) .nil) (calls_date value) present rfl rfl rfl
  | time value =>
      exact puts_leafCall (.cons (puts_freshBytes _) .nil) (calls_time value) present rfl rfl rfl
  | duration counted =>
      exact puts_leafCall (.cons (puts_int _) (.cons (puts_int _) (.cons (puts_int _) .nil)))
        (calls_duration _ _ _) present rfl rfl (by simp [Node.object?, counted])
  | @decimal _ text canonical =>
      exact puts_leafCall (.cons (puts_freshText _) .nil) (calls_decimal text) present rfl rfl
        (by simp [Node.object?, canonical])
  | array value => exact Puts.own (puts_array (fits_leaf present rfl rfl rfl))
  | emptyTuple => exact puts_emptyTuple.scalar present rfl rfl
  | tuple nonempty => exact puts_tuple nodes present nonempty
  | list items =>
      rw [← steps_nodeItems graph protocol]
      refine Puts.own (puts_list (fills_nodeItems rfl nodes items) (nodeKey_own present rfl)
        (fits_own present rfl fun is => ?_))
      rcases is with ⟨values, made, hold⟩
      rw [contentsOf_nodeItems] at hold
      exact ⟨values, holdAll_denotes.1 hold, made⟩
  | set items =>
      refine Puts.own (puts_set nodes (nodeKey_own present rfl) (fits_own present rfl fun is => ?_))
      rcases is with ⟨values, made, hold⟩
      exact ⟨values, holdAll_denotes.1 hold, made⟩
  | dict entries =>
      refine Puts.own
        (puts_dict nodes (nodeKey_own present rfl) (fits_own present rfl fun is => ?_))
      rcases is with ⟨values, made, hold⟩
      exact ⟨values, holdAll_denotes.1 hold, made⟩

/-- From wherever the machine follows to the one trace, it follows to the other, with what the node
is read as on top. -/
def Denoting (graph : Graph) (protocol : Protocol) (id : NodeId) (trace final : Trace) : Prop :=
  final.memo.next ≤ 2 ^ 32 → ∀ machine, Follows graph ⟨trace, machine⟩ →
    ∃ later, Follows graph ⟨final, later⟩ ∧
      Above ⟨trace, machine⟩ machine.stack [.denotes graph protocol id] ⟨final, later⟩

private theorem denoting_fetched {id : NodeId} {trace : Trace} {slot : Nat}
    (found : trace.memo.find? (.node id) = some slot) :
    Denoting graph protocol id trace
      ((trace.record (.begins id)).emit (protocol.getOpcode slot)) := by
  intro room machine follows
  rcases (follows.begins id).exists_get protocol found room with ⟨value, held, -, later⟩
  have denotes : Denotes graph protocol _ id value := later.denotes found held
  exact ⟨_, later, [value], .aside rfl rfl rfl, rfl, .cons denotes .nil⟩

private theorem denoting_written {depth : Nat} {id : NodeId} {node : Node} {steps : List Step}
    {trace final : Trace}
    (writes : ∀ {id trace final}, Trace.writeNode graph protocol depth id trace =
      .complete final → Denoting graph protocol id trace final)
    (present : graph.node? id = some node) (plan : protocol.plan id node = .ok steps)
    (performed : Trace.performAll protocol (Trace.writeNode graph protocol depth) steps
      (trace.record (.begins id)) = .complete final) :
    Denoting graph protocol id trace final := by
  intro room machine follows
  have nodes (id : NodeId) : Puts graph protocol (Trace.writeNode graph protocol depth)
      [.denotes graph protocol id] [.node id] :=
    .of_step (fun complete => (Trace.Grows.writeNode complete).next_le)
      fun follows room complete => writes complete room _ follows
  rcases (puts_plan nodes present plan).exists_above (follows.begins id) room performed with
      ⟨later, after, values, extends_, whole, hold⟩
  have begun : Extends graph protocol ⟨trace, machine⟩ ⟨trace.record (.begins id), machine⟩ :=
    .aside rfl rfl rfl
  exact ⟨later, after, values, begun.trans extends_, whole, hold⟩

/-- Writing a node to its end leaves what it is read as. -/
theorem denoting_writeNode {depth : Nat} {id : NodeId} {trace final : Trace}
    (complete : Trace.writeNode graph protocol depth id trace = .complete final) :
    Denoting graph protocol id trace final :=
  Trace.writeNode_induction (motive := Denoting graph protocol)
    (fun found => denoting_fetched found)
    (fun writes _ present plan performed => denoting_written writes present plan performed)
    complete

end Stage

end PickleTrial
