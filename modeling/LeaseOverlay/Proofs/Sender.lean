import LeaseOverlay.Proofs.Address
import LeaseOverlay.Proofs.Routes

namespace LeaseOverlay

def Link.Literal (link : Link) : Prop :=
  ∀ t e, Endpoint.ofString? t = some e → link.resolve t = some e

theorem Link.literal_up : Link.up.Literal := fun _ _ h => h

namespace Udp

variable {u v : Udp} {link : Link} {e source : Endpoint} {bytes : List UInt8} {inbound : Inbound}

theorem locates_text (e : Endpoint) : Locates ("udp://" ++ e.text) e :=
  ⟨e.text, rfl, e.ofString?_text⟩

theorem endpoint?_text (e : Endpoint) : endpoint? ("udp://" ++ e.text) = some e :=
  endpoint?_eq_some_iff.mpr (locates_text e)

theorem source_of_receive (h : (u.receive source bytes).2 = some inbound) :
    inbound.source = .address ("udp://" ++ source.text) := by
  unfold receive at h
  split at h
  · cases h
  · cases h
    rfl
  · split at h
    · cases h
    · cases h
      rfl

theorem resolve_text (hlink : link.Literal) (v : Udp) (e : Endpoint) :
    v.resolve link (.address ("udp://" ++ e.text)) = .ok e := by
  have hhost : host? ("udp://" ++ e.text) = some e.text := host?_eq_some_iff.mpr rfl
  rw [resolve, hhost]
  dsimp only
  rw [hlink _ _ e.ofString?_text]

theorem send_of_resolve {dest : Destination} (h : v.resolve link dest = .ok e) (m : Message) :
    v.send link dest m = (do
      let out ← v.encode m
      if link.takes e out.length then return (e, out)
      else .error (.unreachable dest "datagram refused")) := by
  rw [send, h]
  rfl

theorem resolve_learn {p : PeerId} {skipped rest : List String} (hp : p ≠ v.self)
    (hskipped : ∀ b ∈ skipped, endpoint? b = none) (e : Endpoint) :
    (v.learn ⟨p, skipped ++ ("udp://" ++ e.text) :: rest⟩).resolve link (.peer p) = .ok e := by
  have hfirst : (skipped ++ ("udp://" ++ e.text) :: rest).findSome? endpoint? = some e := by
    rw [findSome?_endpoint?_iff]
    refine ⟨skipped, _, rest, rfl, locates_text e, fun b hb => ?_⟩
    exact endpoint?_eq_none_iff.mp (hskipped b hb)
  have hlearn : v.learn ⟨p, skipped ++ ("udp://" ++ e.text) :: rest⟩ =
      { v with routes := v.routes.insert p e } := by
    rw [learn, if_neg hp, hfirst]
  rw [hlearn, resolve, Table.get?_insert_self]

/-- Every endpoint is found again from its address. So whatever is sent to the source of a message
that was delivered goes to the endpoint its datagram came from, and so does what is sent to a peer
whose route has that source as its first usable address. Any address that gives an endpoint can be
replaced by the one that is written for it. -/
theorem sources_can_be_answered :
    (∀ e : Endpoint, endpoint? ("udp://" ++ e.text) = some e) ∧
    (∀ (link : Link), link.Literal → ∀ (u v : Udp) source bytes inbound,
      (u.receive source bytes).2 = some inbound →
      v.resolve link inbound.source = .ok source ∧
      (∀ m, v.send link inbound.source m = (do
        let out ← v.encode m
        if link.takes source out.length then return (source, out)
        else .error (.unreachable inbound.source "datagram refused"))) ∧
      ∃ a, inbound.source = .address a ∧ ∀ p skipped rest, p ≠ v.self →
        (∀ b ∈ skipped, endpoint? b = none) →
        (v.learn ⟨p, skipped ++ a :: rest⟩).resolve link (.peer p) = .ok source) ∧
    ∀ s e, endpoint? s = some e → endpoint? ("udp://" ++ e.text) = some e := by
  refine ⟨endpoint?_text, fun link hlink u v source bytes inbound h => ?_,
    fun _ e _ => endpoint?_text e⟩
  have hsource := source_of_receive h
  have hresolve : v.resolve link inbound.source = .ok source := by
    rw [hsource]
    exact resolve_text hlink v source
  exact ⟨hresolve, send_of_resolve hresolve, _, hsource,
    fun p skipped rest hp hskipped => resolve_learn hp hskipped source⟩

/-- The second longest run of zeros is written out, and the link is named. -/
def linkLocal : Endpoint := .v6 ⟨[0xfe80, 0, 0, 0x1a, 0, 0, 0, 1], rfl⟩ 5 9700

theorem link_local_sender_is_answered :
    let inbound : Inbound := ⟨.empty, .address "udp://[fe80:0:0:1a::1%5]:9700"⟩
    let listener := new (.filled 2) []
    Link.up.Literal ∧
    (∃ bytes, (listener.receive linkLocal bytes).2 = some inbound) ∧
    listener.resolve .up inbound.source = .ok linkLocal ∧
    (listener.learn ⟨.filled 3, ["tcp://nope", "udp://[fe80:0:0:1a::1%5]:9700"]⟩).resolve .up
      (.peer (.filled 3)) = .ok linkLocal ∧
    endpoint? "udp://[FE80::001a:0:0:0.0.0.1%05]:9700" = some linkLocal ∧
    endpoint? "udp://[fe80:0:0:1a::1%5]:9700" = some linkLocal := by
  intro inbound listener
  obtain ⟨_, hanswer, hagain⟩ := sources_can_be_answered
  have htext : "udp://" ++ linkLocal.text = "udp://[fe80:0:0:1a::1%5]:9700" := by decide +kernel
  have hreceive : (listener.receive linkLocal (Frame.toJson ⟨some (.filled 1), .empty⟩).render).2 =
      some inbound := by decide +kernel
  obtain ⟨hresolve, _, a, ha, hlearn⟩ :=
    hanswer .up Link.literal_up listener listener linkLocal _ inbound hreceive
  cases ha
  have hodd : endpoint? "udp://[FE80::001a:0:0:0.0.0.1%05]:9700" = some linkLocal := by
    decide +kernel
  refine ⟨Link.literal_up, ⟨_, hreceive⟩, hresolve, ?_, hodd, ?_⟩
  · exact hlearn (.filled 3) ["tcp://nope"] [] (by decide) (by decide +kernel)
  · exact htext ▸ hagain _ _ hodd

end Udp

end LeaseOverlay
