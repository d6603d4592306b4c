import LeaseOverlay.Proofs.Value
import LeaseOverlay.Wire.Control
import LeaseOverlay.Wire.Header

namespace LeaseOverlay

namespace Json

theorem mapM_map {α β : Type} {read : β → Option α} {write : α → β}
    (h : ∀ a, read (write a) = some a) (as : List α) : (as.map write).mapM read = some as := by
  induction as with
  | nil => rfl
  | cons a as ih => simp [h, ih]

theorem decode?_render {α : Type} {read : Value → Option α} {v : Value} {a : α} (hc : v.Canonical)
    (h : read v = some a) : decode? read v.render = some a := by
  rw [decode?, Value.parse?_render hc, Option.bind_some, h]

namespace Value

theorem list?_map {α : Type} {read : Value → Option α} {write : α → Value}
    (h : ∀ a, read (write a) = some a) (as : List α) :
    list? read (array (as.map write)) = some as :=
  mapM_map h as

@[simp] theorem string?_ofString (s : String) : (ofString s).string? = some s :=
  Text.toString?_ofString s

theorem natBelow?_ofNat {n bound : Nat} (h : n < bound) : (ofNat n).natBelow? bound = some n := by
  simp [natBelow?, ofNat, h]

theorem signed64?_ofInt {i : Int} (h : -0x8000000000000000 ≤ i ∧ i < 0x8000000000000000) :
    (ofInt i).signed64? = some i := by
  simp [signed64?, ofInt, h]

theorem bytes?_ofBytes (bs : List UInt8) : (ofBytes bs).bytes? = some bs := by
  refine mapM_map ?_ bs
  intro b
  rw [natBelow?_ofNat b.toNat_lt, Option.map_some, UInt8.ofNat_toNat]

theorem canonical_ofBytes (bs : List UInt8) : (ofBytes bs).Canonical := by
  refine canonical_map ?_ bs
  intro b
  exact canonical_ofNat b.toNat

theorem fields?_ofFields (fs : List (String × Value)) : (ofFields fs).fields? = some fs := by
  refine mapM_map ?_ fs
  intro f
  simp

end Value

namespace Record

def slotIn (fs : List (String × Value)) (name : String) : Slot :=
  match fs.lookup name with
  | some v => .given v
  | none => .omitted

@[simp] theorem slotIn_nil (name : String) : slotIn [] name = .omitted := rfl

@[simp] theorem slotIn_cons_self (name : String) (v : Value) (fs : List (String × Value)) :
    slotIn ((name, v) :: fs) name = .given v := by
  rw [slotIn, List.lookup_cons_self]

@[simp] theorem slotIn_cons_ne {name other : String} (h : name ≠ other) (v : Value)
    (fs : List (String × Value)) : slotIn ((other, v) :: fs) name = slotIn fs name := by
  rw [slotIn, List.lookup_cons, beq_false_of_ne h, slotIn]

theorem lookup_map {α : Type} (g : String → α) {names : List String} {name : String}
    (h : name ∈ names) : (names.map fun n => (n, g n)).lookup name = some (g name) := by
  induction names with
  | nil => cases h
  | cons n ns ih =>
    by_cases hn : name = n
    · subst hn
      simp
    · have hne : (name == n) = false := beq_false_of_ne hn
      have hrest := ih ((List.mem_cons.mp h).resolve_left hn)
      simp only [List.map_cons, List.lookup_cons, hne, hrest]

theorem ofValue?_ofFields (names : List String) (fs : List (String × Value))
    (hk : ∀ f ∈ fs, f.1 ∈ names) (hn : (fs.map (·.1)).Nodup) :
    ∃ r, ofValue? names (Value.ofFields fs) = some r ∧ ∀ n ∈ names, r.slot n = slotIn fs n := by
  have hknown : (fs.filter fun f => names.contains f.1) = fs :=
    List.filter_eq_self.mpr fun f hf => by simpa using hk f hf
  have hunknown : (fs.filter fun f => !names.contains f.1) = [] :=
    List.filter_eq_nil_iff.mpr fun f hf => by simpa using hk f hf
  refine ⟨⟨names.map fun n => (n, slotIn fs n)⟩, ?_, fun n hmem => ?_⟩
  · change (Value.ofFields fs).fields?.bind (ofFields names) = _
    rw [Value.fields?_ofFields, Option.bind_some]
    simp only [ofFields, hknown, hunknown, List.all_nil, and_true, if_pos hn]
    rfl
  · simp [slot, lookup_map _ hmem]

end Record

namespace Slot

variable {α : Type} {read : Value → Option α} {v : Value} {a : α}

@[simp] theorem required_given : (given v).required read = read v := rfl

@[simp] theorem withDefault_given {default : α} :
    (given v).withDefault read default = read v := rfl

@[simp] theorem optional_omitted : omitted.optional read = some none := rfl

theorem optional_given (hv : v ≠ .null) (h : read v = some a) :
    (given v).optional read = some (some a) := by
  cases v with
  | null => exact absurd rfl hv
  | _ => exact congrArg (Option.map some) h

theorem orNull_given (hv : v ≠ .null) (h : read v = some a) :
    (given v).orNull read = some (some a) := by
  cases v with
  | null => exact absurd rfl hv
  | _ => exact congrArg (Option.map some) h

end Slot

end Json

open Json

theorem PeerId.canonical_toJson (p : PeerId) : p.toJson.Canonical := Value.canonical_ofString _

namespace Descriptor

theorem canonical_toJson (d : Descriptor) : d.toJson.Canonical := by
  refine Value.canonical_ofFields ?_
  simp [PeerId.canonical_toJson, Value.canonical_map]

theorem ofJson?_toJson (d : Descriptor) : ofJson? d.toJson = some d := by
  obtain ⟨r, hr, hslot⟩ := Record.ofValue?_ofFields ["peer_id", "name", "addresses"]
    [("peer_id", d.peer.toJson), ("name", .ofString d.name),
      ("addresses", .array (d.addresses.map Value.ofString))] (by simp) (by simp)
  simp [ofJson?, toJson, hr, hslot, Value.list?_map]

end Descriptor

namespace Message

theorem canonical_toJson (m : Message) : m.toJson.Canonical := by
  refine Value.canonical_ofFields ?_
  rw [List.forall_mem_singleton]
  refine Value.canonical_ofFields ?_
  intro f hf
  obtain ⟨e, _, rfl⟩ := List.mem_map.mp hf
  exact Value.canonical_ofBytes e.2

theorem elementsOfJson?_ofFields (t : Table String (List UInt8)) :
    elementsOfJson? (.ofFields (t.entries.map fun e => (e.1, .ofBytes e.2))) = some t := by
  have hread : (t.entries.map fun e => (e.1, Value.ofBytes e.2)).mapM
      (fun f => f.2.bytes?.map fun bs => (f.1, bs)) = some t.entries := by
    refine mapM_map ?_ t.entries
    intro e
    rw [Value.bytes?_ofBytes, Option.map_some]
  simp [elementsOfJson?, Value.fields?_ofFields, hread]

theorem ofJson?_toJson (m : Message) : ofJson? m.toJson = some m := by
  obtain ⟨r, hr, hslot⟩ := Record.ofValue?_ofFields ["elements"]
    [("elements", .ofFields (m.elements.entries.map fun e => (e.1, .ofBytes e.2)))]
    (by simp) (by simp)
  simp [ofJson?, toJson, hr, hslot, elementsOfJson?_ofFields]

theorem json?_setJson {α : Type} {read : Value → Option α} {v : Value} {a : α} (hc : v.Canonical)
    (h : read v = some a) (m : Message) (name : String) :
    (m.setJson name v).json? name read = .ok (some a) := by
  simp only [json?, setJson, get?_set_self, decode?_render hc h]

end Message

namespace Header

def Fits (h : Header) : Prop := h.ttl < 0x100000000

theorem canonical_toJson (h : Header) : h.toJson.Canonical := by
  refine Value.canonical_ofFields ?_
  simp [PeerId.canonical_toJson, Value.canonical_map]

theorem ofJson?_toJson {h : Header} (hf : h.Fits) : ofJson? h.toJson = some h := by
  obtain ⟨r, hr, hslot⟩ := Record.ofValue?_ofFields ["msg_id", "ttl", "service", "param", "path"]
    [("msg_id", .ofString h.id), ("ttl", .ofNat h.ttl), ("service", .ofString h.service),
      ("param", .ofString h.param), ("path", .array (h.path.map PeerId.toJson))]
    (by simp) (by simp)
  have httl : (Value.ofNat h.ttl).unsigned32? = some h.ttl := Value.natBelow?_ofNat hf
  simp [ofJson?, toJson, hr, hslot, Value.list?_map, httl]

theorem read_attach {h : Header} (hf : h.Fits) (m : Message) :
    read (h.attach m) = .ok (some h) :=
  Message.json?_setJson h.canonical_toJson (ofJson?_toJson hf) m element

theorem get?_attach (h : Header) (m : Message) {name : String} (hn : name ≠ element) :
    (h.attach m).get? name = m.get? name :=
  Message.get?_set_ne m _ hn

end Header

namespace Control

def Fits : Control → Prop
  | reply r => -0x8000000000000000 ≤ r.leaseMs ∧ r.leaseMs < 0x8000000000000000
  | _ => True

theorem canonical_requestToJson (d : Descriptor) : (requestToJson d).Canonical := by
  refine Value.canonical_ofFields ?_
  simp [Descriptor.canonical_toJson]

theorem requestOfJson?_requestToJson (d : Descriptor) :
    requestOfJson? (requestToJson d) = some d := by
  obtain ⟨r, hr, hslot⟩ := Record.ofValue?_ofFields ["descriptor"] [("descriptor", d.toJson)]
    (by simp) (by simp)
  simp [requestOfJson?, requestToJson, hr, hslot, Descriptor.ofJson?_toJson]

theorem canonical_disconnectToJson (p : PeerId) : (disconnectToJson p).Canonical := by
  refine Value.canonical_ofFields ?_
  simp [PeerId.canonical_toJson]

theorem disconnectOfJson?_disconnectToJson (p : PeerId) :
    disconnectOfJson? (disconnectToJson p) = some p := by
  obtain ⟨r, hr, hslot⟩ := Record.ofValue?_ofFields ["peer_id"] [("peer_id", p.toJson)]
    (by simp) (by simp)
  simp [disconnectOfJson?, disconnectToJson, hr, hslot]

theorem canonical_replyToJson (r : LeaseReply) : (replyToJson r).Canonical := by
  refine Value.canonical_ofFields ?_
  cases r.descriptor <;> simp [PeerId.canonical_toJson, Descriptor.canonical_toJson]

theorem draftOfJson?_replyToJson {r : LeaseReply} (hf : (reply r).Fits) :
    Draft.ofJson? (replyToJson r) = some ⟨some r.peer.text, some r.leaseMs, r.descriptor⟩ := by
  obtain ⟨peer, leaseMs, descriptor⟩ := r
  have hpeer : (Slot.given peer.toJson).optional Value.string? = some (some peer.text) :=
    Slot.optional_given (by simp [PeerId.toJson, Value.ofString]) (Value.string?_ofString _)
  have hlease : (Slot.given (.ofInt leaseMs)).optional Value.signed64? = some (some leaseMs) :=
    Slot.optional_given (by simp [Value.ofInt]) (Value.signed64?_ofInt hf)
  cases descriptor with
  | none =>
    obtain ⟨r, hr, hslot⟩ := Record.ofValue?_ofFields ["peer_id", "lease_ms", "descriptor"]
      [("peer_id", peer.toJson), ("lease_ms", .ofInt leaseMs)] (by simp) (by simp)
    simp [Draft.ofJson?, replyToJson, hr, hslot, hpeer, hlease]
  | some d =>
    have hd : (Slot.given d.toJson).optional Descriptor.ofJson? = some (some d) :=
      Slot.optional_given (by simp [Descriptor.toJson, Value.ofFields]) d.ofJson?_toJson
    obtain ⟨r, hr, hslot⟩ := Record.ofValue?_ofFields ["peer_id", "lease_ms", "descriptor"]
      [("peer_id", peer.toJson), ("lease_ms", .ofInt leaseMs), ("descriptor", d.toJson)]
      (by simp) (by simp)
    simp [Draft.ofJson?, replyToJson, hr, hslot, hpeer, hlease, hd]

theorem reply_draft (r : LeaseReply) :
    (Draft.mk (some r.peer.text) (some r.leaseMs) r.descriptor).reply = .ok r := by
  simp [Draft.reply, PeerId.parse]

theorem ofMessage_toMessage {c : Control} (hf : c.Fits) : ofMessage c.toMessage = .ok (some c) := by
  have habsent {name element : String} (hn : name ≠ element) (v : Value) {α : Type}
      (read : Value → Option α) :
      (Message.empty.setJson element v).json? name read = .ok none := by
    rw [Message.setJson, Message.json?_set_ne _ _ _ hn]
    rfl
  have hreply : replyElement ≠ disconnectElement ∧ replyElement ≠ requestElement := by decide
  have hrequest : disconnectElement ≠ requestElement := by decide
  cases c with
  | reply r =>
    have hd := Message.json?_setJson (canonical_replyToJson r) (draftOfJson?_replyToJson hf) .empty
      replyElement
    simp only [ofMessage, toMessage, hd, reply_draft]
    rfl
  | disconnect p =>
    have hp := Message.json?_setJson (canonical_disconnectToJson p)
      (disconnectOfJson?_disconnectToJson p) .empty disconnectElement
    simp only [ofMessage, toMessage, habsent hreply.1, hp]
  | request d =>
    have hd := Message.json?_setJson (canonical_requestToJson d) (requestOfJson?_requestToJson d)
      .empty requestElement
    simp only [ofMessage, toMessage, habsent hreply.2, habsent hrequest, hd]

theorem ofMessage_attach (h : Header) (m : Message) : ofMessage (h.attach m) = ofMessage m := by
  have hother {name : String} (hn : name ≠ Header.element) {α : Type} (read : Value → Option α) :
      (h.attach m).json? name read = m.json? name read :=
    Message.json?_set_ne m _ read hn
  simp only [ofMessage, hother (show replyElement ≠ Header.element by decide),
    hother (show disconnectElement ≠ Header.element by decide),
    hother (show requestElement ≠ Header.element by decide)]

end Control

/-- Whatever fits the wire crosses it whole: control messages, headers and messages are read back as
they were written, and a header leaves the rest of the message it is attached to alone. -/
theorem wire_loses_nothing :
    (∀ c : Control, c.Fits → Control.ofMessage c.toMessage = .ok (some c)) ∧
    (∀ (h : Header) (m : Message), h.Fits →
      Header.read (h.attach m) = .ok (some h) ∧
      (∀ name, name ≠ Header.element → (h.attach m).get? name = m.get? name) ∧
      Control.ofMessage (h.attach m) = Control.ofMessage m) ∧
    ∀ m : Message, decode? Message.ofJson? m.toJson.render = some m := by
  refine ⟨?_, ?_, ?_⟩
  · intro c hf
    exact Control.ofMessage_toMessage hf
  · intro h m hf
    exact ⟨Header.read_attach hf m, fun name hn => h.get?_attach m hn, Control.ofMessage_attach h m⟩
  · intro m
    exact decode?_render m.canonical_toJson m.ofJson?_toJson

def LeaseReply.least : LeaseReply :=
  ⟨.filled 0xAB, -0x8000000000000000, some ⟨.filled 0xCD, "\"\\\x01\n é 😀", ["", "udp://[::1]"]⟩⟩

def Header.most : Header := ⟨"", 0xFFFFFFFF, "\t", "svc", [.filled 1, .filled 2]⟩

theorem extremes_cross_the_wire :
    (Control.reply .least).Fits ∧
    Control.ofMessage (Control.reply .least).toMessage = .ok (some (.reply .least)) ∧
    Header.most.Fits ∧
    Header.read (Header.most.attach (.ofList [(Header.element, [0x7B]), ("", [0, 0xFF])])) =
      .ok (some .most) := by
  obtain ⟨hcontrol, hheader, _⟩ := wire_loses_nothing
  have hc : (Control.reply .least).Fits := by
    constructor <;> decide
  have hh : Header.most.Fits := by
    simp [Header.Fits, Header.most]
  exact ⟨hc, hcontrol _ hc, hh, (hheader _ _ hh).1⟩

end LeaseOverlay
