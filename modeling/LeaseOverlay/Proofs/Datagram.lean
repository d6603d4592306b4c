import LeaseOverlay.Proofs.Codec
import LeaseOverlay.Udp

namespace LeaseOverlay

open Json

namespace Frame

theorem canonical_toJson (f : Frame) : f.toJson.Canonical := by
  refine Value.canonical_ofFields ?_
  cases f.sender <;> simp [PeerId.canonical_toJson, Message.canonical_toJson]

theorem ofJson?_toJson (f : Frame) : ofJson? f.toJson = some f := by
  obtain ⟨sender, m⟩ := f
  obtain ⟨r, hr, hslot⟩ := Record.ofValue?_ofFields ["src", "message"]
    [("src", (sender.map PeerId.toJson).getD .null), ("message", m.toJson)] (by simp) (by simp)
  have hsender : (Slot.given ((sender.map PeerId.toJson).getD .null)).orNull PeerId.ofJson? =
      some sender := by
    cases sender with
    | none => rfl
    | some p => exact Slot.orNull_given (by simp [PeerId.toJson, Value.ofString]) p.ofJson?_toJson
  simp [ofJson?, toJson, hr, hslot, hsender, m.ofJson?_toJson]

theorem decode?_toJson (f : Frame) : decode? ofJson? f.toJson.render = some f :=
  decode?_render f.canonical_toJson f.ofJson?_toJson

end Frame

namespace Udp

inductive Input
  | datagram (source : Endpoint) (bytes : List UInt8)
  | hint (r : Route)

def Input.About (p : PeerId) : Input → Prop
  | datagram _ bytes =>
      ∃ f, decode? Frame.ofJson? (bytes.take Frame.limit) = some f ∧ f.sender = some p
  | hint r => r.peer = p

def input (u : Udp) : Input → Udp
  | .datagram source bytes => (u.receive source bytes).1
  | .hint r => u.learn r

def run : Udp → List Input → Udp
  | u, [] => u
  | u, i :: is => run (u.input i) is

variable {u : Udp} {p : PeerId} {i : Input}

theorem get?_routes_input (h : ¬i.About p) : (u.input i).routes.get? p = u.routes.get? p := by
  cases i with
  | datagram source bytes =>
    simp only [input, receive]
    split
    · rfl
    · rfl
    · next q m hdecode =>
      have hne : p ≠ q := by
        rintro rfl
        exact h ⟨_, hdecode, rfl⟩
      split
      · rfl
      · exact Table.get?_insert_ne _ _ hne
  | hint r =>
    have hne : p ≠ r.peer := fun he => h he.symm
    simp only [input, learn]
    split
    · rfl
    · split
      · exact Table.get?_insert_ne _ _ hne
      · rfl

theorem get?_routes_run {is : List Input} (h : ∀ i ∈ is, ¬i.About p) :
    (u.run is).routes.get? p = u.routes.get? p := by
  induction is generalizing u with
  | nil => rfl
  | cons i is ih =>
    obtain ⟨hi, his⟩ := List.forall_mem_cons.mp h
    rw [run, ih his, get?_routes_input hi]

theorem encode_eq_ok_iff {m : Message} {bytes : List UInt8} :
    u.encode m = .ok bytes ↔
      bytes = (Frame.toJson ⟨some u.self, m⟩).render ∧ bytes.length ≤ Frame.limit := by
  simp only [encode]
  split
  · next h =>
    constructor
    · intro he
      cases he
    · rintro ⟨rfl, hle⟩
      omega
  · next h =>
    rw [Except.ok.injEq]
    constructor
    · rintro rfl
      exact ⟨rfl, by omega⟩
    · rintro ⟨rfl, _⟩
      rfl

theorem receive_of_decode_none {bytes : List UInt8}
    (h : decode? Frame.ofJson? (bytes.take Frame.limit) = none) (source : Endpoint) :
    u.receive source bytes = (u, none) := by
  rw [receive, h]

theorem receive_of_encode {a : Udp} {m : Message} {bytes : List UInt8} (h : a.encode m = .ok bytes)
    (source : Endpoint) :
    u.receive source bytes =
      if a.self = u.self then (u, none)
      else ({ u with routes := u.routes.insert a.self source },
        some ⟨m, .address (address source)⟩) := by
  obtain ⟨rfl, hle⟩ := encode_eq_ok_iff.mp h
  rw [receive, List.take_of_length_le hle, Frame.decode?_toJson]

theorem send_of_get? {link : Link} {e : Endpoint} (h : u.routes.get? p = some e) (m : Message) :
    u.send link (.peer p) m = (do
      let bytes ← u.encode m
      if link.takes e bytes.length then return (e, bytes)
      else .error (.unreachable (.peer p) "datagram refused")) := by
  rw [send, resolve, h]
  rfl

/-- Every frame that `a` encodes fits the buffer of `b`, who delivers its message as it was and
knows from then on where `a` is. `b` passes over its own frames and over whatever is no frame. -/
theorem frame_survives {a b : Udp} {m : Message} {bytes : List UInt8} (h : a.encode m = .ok bytes)
    (source : Endpoint) (link : Link) :
    bytes.length ≤ Frame.limit ∧
    (a.self ≠ b.self →
      (b.receive source bytes).2 = some ⟨m, .address ("udp://" ++ source.text)⟩ ∧
      ∀ is : List Input, (∀ i ∈ is, ¬i.About a.self) → ∀ reply,
        ((b.receive source bytes).1.run is).send link (.peer a.self) reply = (do
          let out ← ((b.receive source bytes).1.run is).encode reply
          if link.takes source out.length then return (source, out)
          else .error (.unreachable (.peer a.self) "datagram refused"))) ∧
    (a.self = b.self → b.receive source bytes = (b, none)) ∧
    ∀ other, decode? Frame.ofJson? (other.take Frame.limit) = none →
      b.receive source other = (b, none) := by
  have hreceive := receive_of_encode (u := b) h source
  refine ⟨(encode_eq_ok_iff.mp h).2, ?_, ?_, ?_⟩
  · intro hne
    rw [if_neg hne] at hreceive
    rw [hreceive]
    refine ⟨rfl, fun is his reply => send_of_get? ?_ reply⟩
    rw [get?_routes_run his]
    exact Table.get?_insert_self _ _ _
  · intro heq
    rw [hreceive, if_pos heq]
  · intro other hother
    exact receive_of_decode_none hother source

def awkward : Message := .ofList [("\"\\\n😀", [0, 0xFF]), ("", [])]

theorem awkward_message_and_answer :
    ∃ bytes, (new (.filled 1) []).encode awkward = .ok bytes ∧
      ((new (.filled 2) []).receive (.v4 ⟨127, 0, 0, 1⟩ 9700) bytes).2 =
        some ⟨awkward, .address "udp://127.0.0.1:9700"⟩ ∧
      ∃ out, (((new (.filled 2) []).receive (.v4 ⟨127, 0, 0, 1⟩ 9700) bytes).1.run
        [.hint ⟨.filled 3, []⟩]).send .up (.peer (.filled 1)) .empty =
          .ok (.v4 ⟨127, 0, 0, 1⟩ 9700, out) := by
  have h : (new (.filled 1) []).encode awkward =
      .ok (Frame.toJson ⟨some (.filled 1), awkward⟩).render :=
    encode_eq_ok_iff.mpr ⟨rfl, by decide +kernel⟩
  obtain ⟨_, hother, _, _⟩ :=
    frame_survives (b := new (.filled 2) []) h (.v4 ⟨127, 0, 0, 1⟩ 9700) .up
  have hne : PeerId.filled 1 ≠ .filled 2 := by decide
  obtain ⟨hdelivered, hanswer⟩ := hother hne
  have hnews : ∀ i ∈ [Input.hint ⟨.filled 3, []⟩], ¬i.About (.filled 1) := by
    rw [List.forall_mem_singleton]
    have hpeer : PeerId.filled 3 ≠ .filled 1 := by decide
    exact hpeer
  refine ⟨_, h, ?_, (Frame.toJson ⟨some (.filled 2), .empty⟩).render, ?_⟩
  · rw [hdelivered]
    decide +kernel
  · refine (hanswer _ hnews .empty).trans ?_
    rw [receive_of_encode h]
    decide +kernel

end Udp

end LeaseOverlay
