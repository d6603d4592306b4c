import Mathlib.Data.Finset.Dedup
import Mathlib.Data.Finset.Card
import LeaseOverlay.Proofs.Datagram
import LeaseOverlay.Proofs.Purging

namespace LeaseOverlay

open Json

namespace Udp

def Locates (a : String) (e : Endpoint) : Prop :=
  ∃ t, a = "udp://" ++ t ∧ Endpoint.ofString? t = some e

/-- The input says that the peer is at this endpoint: a frame of the peer came from there, or it is
the first usable address on a route to the peer. -/
inductive Input.Teaches (p : PeerId) (e : Endpoint) : Input → Prop
  | frame {bytes : List UInt8} {m : Message}
      (h : decode? Frame.ofJson? (bytes.take Frame.limit) = some ⟨some p, m⟩) :
      Teaches p e (.datagram e bytes)
  | hint {skipped rest : List String} {a : String} (unusable : ∀ b ∈ skipped, ∀ e', ¬Locates b e')
      (usable : Locates a e) : Teaches p e (.hint ⟨p, skipped ++ a :: rest⟩)

inductive Input.Idle (self : PeerId) : Input → Prop
  | undecodable {source : Endpoint} {bytes : List UInt8}
      (h : decode? Frame.ofJson? (bytes.take Frame.limit) = none) :
      Idle self (.datagram source bytes)
  | anonymous {source : Endpoint} {bytes : List UInt8} {m : Message}
      (h : decode? Frame.ofJson? (bytes.take Frame.limit) = some ⟨none, m⟩) :
      Idle self (.datagram source bytes)
  | own {source : Endpoint} {bytes : List UInt8} {m : Message}
      (h : decode? Frame.ofJson? (bytes.take Frame.limit) = some ⟨some self, m⟩) :
      Idle self (.datagram source bytes)
  | ownRoute {addresses : List String} : Idle self (.hint ⟨self, addresses⟩)
  | unusable {r : Route} (h : ∀ a ∈ r.addresses, ∀ e, ¬Locates a e) : Idle self (.hint r)

def LastTold (p : PeerId) (is : List Input) (e : Endpoint) : Prop :=
  ∃ earlier i later, is = earlier ++ i :: later ∧ i.Teaches p e ∧ ∀ j ∈ later, ∀ e', ¬j.Teaches p e'

variable {u : Udp} {p q self : PeerId} {e e' : Endpoint} {i : Input} {is : List Input}

theorem host?_eq_some_iff {a t : String} : host? a = some t ↔ a = "udp://" ++ t := by
  rw [host?, Option.map_eq_some_iff]
  constructor
  · rintro ⟨cs, hcs, rfl⟩
    have ha : a.toList = scheme.toList ++ cs :=
      (List.isPrefixOf?_eq_some_iff_append_eq.mp hcs).symm
    rw [← String.toList_inj, ha, String.toList_append, String.toList_ofList (l := cs), scheme]
  · rintro rfl
    refine ⟨t.toList, ?_, String.ofList_toList⟩
    rw [List.isPrefixOf?_eq_some_iff_append_eq, String.toList_append, scheme]

theorem endpoint?_eq_some_iff {a : String} : endpoint? a = some e ↔ Locates a e := by
  rw [endpoint?, Option.bind_eq_some_iff]
  simp only [host?_eq_some_iff]
  rfl

theorem endpoint?_eq_none_iff {a : String} : endpoint? a = none ↔ ∀ e, ¬Locates a e := by
  simp only [Option.eq_none_iff_forall_ne_some, ne_eq, endpoint?_eq_some_iff]

theorem findSome?_endpoint?_iff {as : List String} :
    as.findSome? endpoint? = some e ↔
      ∃ skipped a rest, as = skipped ++ a :: rest ∧ Locates a e ∧
        ∀ b ∈ skipped, ∀ e', ¬Locates b e' := by
  simp only [List.findSome?_eq_some_iff, endpoint?_eq_some_iff, endpoint?_eq_none_iff]

def Input.told? : Input → Option (PeerId × Endpoint)
  | datagram source bytes =>
    ((decode? Frame.ofJson? (bytes.take Frame.limit)).bind (·.sender)).map (·, source)
  | hint r => (r.addresses.findSome? endpoint?).map (r.peer, ·)

theorem teaches_iff : i.Teaches p e ↔ i.told? = some (p, e) := by
  cases i with
  | datagram source bytes =>
    simp only [Input.told?, Option.map_eq_some_iff, Option.bind_eq_some_iff, Prod.mk.injEq]
    constructor
    · rintro ⟨h⟩
      exact ⟨p, ⟨_, h, rfl⟩, rfl, rfl⟩
    · rintro ⟨_, ⟨⟨_, m⟩, h, rfl⟩, rfl, rfl⟩
      exact .frame h
  | hint r =>
    obtain ⟨q, addresses⟩ := r
    simp only [Input.told?, Option.map_eq_some_iff, findSome?_endpoint?_iff, Prod.mk.injEq]
    constructor
    · rintro ⟨_⟩
      next hunusable husable => exact ⟨e, ⟨_, _, _, rfl, husable, hunusable⟩, rfl, rfl⟩
    · rintro ⟨_, ⟨skipped, a, rest, rfl, husable, hunusable⟩, rfl, rfl⟩
      exact .hint hunusable husable

theorem Input.Teaches.unique (h : i.Teaches p e) (h' : i.Teaches q e') : p = q ∧ e = e' :=
  Prod.mk.inj (Option.some.inj ((teaches_iff.mp h).symm.trans (teaches_iff.mp h')))

theorem not_teaches_of_told? (h : ∀ o ∈ i.told?, o.1 ≠ p) (e : Endpoint) : ¬i.Teaches p e :=
  fun ht => h _ (teaches_iff.mp ht) rfl

theorem input_cases (u : Udp) (i : Input) :
    (i.Idle u.self ∧ u.input i = u) ∨
    ∃ p e, p ≠ u.self ∧ i.Teaches p e ∧ u.input i = { u with routes := u.routes.insert p e } := by
  cases i with
  | datagram source bytes =>
    simp only [input, receive]
    split
    · next h => exact .inl ⟨.undecodable h, rfl⟩
    · next m h => exact .inl ⟨.anonymous h, rfl⟩
    · next p m h =>
      by_cases hp : p = u.self
      · subst hp
        exact .inl ⟨.own h, by rw [if_pos rfl]⟩
      · exact .inr ⟨p, source, hp, .frame h, by rw [if_neg hp]⟩
  | hint r =>
    obtain ⟨p, addresses⟩ := r
    simp only [input, learn]
    by_cases hp : p = u.self
    · subst hp
      exact .inl ⟨.ownRoute, if_pos rfl⟩
    rw [if_neg hp]
    split
    · next e h =>
      have ht : (Input.hint ⟨p, addresses⟩).Teaches p e := by
        rw [teaches_iff, Input.told?, h]
        rfl
      exact .inr ⟨p, e, hp, ht, rfl⟩
    · next h =>
      refine .inl ⟨.unusable fun a ha => ?_, rfl⟩
      exact endpoint?_eq_none_iff.mp (List.findSome?_eq_none_iff.mp h a ha)

theorem Input.Idle.not_teaches (h : i.Idle self) (hp : p ≠ self) (e : Endpoint) :
    ¬i.Teaches p e := by
  intro ht
  cases h with
  | undecodable hnone =>
    cases ht with
    | frame hp => cases hnone.symm.trans hp
  | anonymous hnone =>
    cases ht with
    | frame hp => cases hnone.symm.trans hp
  | own hself =>
    cases ht with
    | frame hframe => cases hself.symm.trans hframe; exact hp rfl
  | ownRoute => cases ht; exact hp rfl
  | unusable hnone =>
    cases ht with
    | hint _ husable => exact hnone _ (by simp) _ husable

theorem input_of_idle (h : i.Idle u.self) : u.input i = u := by
  rcases u.input_cases i with ⟨_, heq⟩ | ⟨p, e, hp, ht, _⟩
  · exact heq
  · exact absurd ht (h.not_teaches hp e)

theorem self_input (u : Udp) (i : Input) : (u.input i).self = u.self := by
  rcases u.input_cases i with ⟨_, heq⟩ | ⟨p, e, _, _, heq⟩ <;> rw [heq]

theorem get?_self_input (h : u.routes.get? u.self = none) (i : Input) :
    (u.input i).routes.get? u.self = none := by
  rcases u.input_cases i with ⟨_, heq⟩ | ⟨p, e, hp, _, heq⟩
  · rwa [heq]
  · rw [heq, Table.get?_insert_ne _ _ hp.symm, h]

theorem get?_input_iff (hp : p ≠ u.self) (i : Input) (e : Endpoint) :
    (u.input i).routes.get? p = some e ↔
      i.Teaches p e ∨ (u.routes.get? p = some e ∧ ∀ e', ¬i.Teaches p e') := by
  rcases u.input_cases i with ⟨hidle, heq⟩ | ⟨q, e₁, hq, ht, heq⟩
  · have hnot := hidle.not_teaches hp
    simp [heq, hnot]
  · rw [heq, Table.get?_insert]
    split
    · next h =>
      subst h
      constructor
      · rintro ⟨⟩
        exact .inl ht
      · rintro (h | ⟨_, h⟩)
        · rw [(ht.unique h).2]
        · exact absurd ht (h e₁)
    · next h =>
      have hnot (e') : ¬i.Teaches p e' := fun h' => h (h'.unique ht).1
      simp [hnot]

theorem run_append (u : Udp) (is js : List Input) : u.run (is ++ js) = (u.run is).run js := by
  induction is generalizing u with
  | nil => rfl
  | cons i is ih => exact ih (u.input i)

theorem self_run (u : Udp) (is : List Input) : (u.run is).self = u.self := by
  induction is generalizing u with
  | nil => rfl
  | cons i is ih => rw [run, ih, self_input]

theorem get?_self_run (h : u.routes.get? u.self = none) (is : List Input) :
    (u.run is).routes.get? u.self = none := by
  induction is generalizing u with
  | nil => exact h
  | cons i is ih =>
    have hstep := ih (u := u.input i)
    rw [self_input] at hstep
    exact hstep (get?_self_input h i)

theorem not_lastTold_nil : ¬LastTold p [] e := by
  rintro ⟨earlier, i, later, h, _⟩
  cases earlier <;> cases h

theorem lastTold_concat :
    LastTold p (is ++ [i]) e ↔
      i.Teaches p e ∨ (LastTold p is e ∧ ∀ e', ¬i.Teaches p e') := by
  constructor
  · rintro ⟨earlier, j, later, his, hj, hlater⟩
    rcases List.eq_nil_or_concat later with rfl | ⟨later, k, rfl⟩
    · obtain ⟨_, hij⟩ := List.append_inj' his rfl
      cases hij
      exact .inl hj
    · rw [List.concat_eq_append] at hlater his
      rw [← List.cons_append, ← List.append_assoc] at his
      obtain ⟨rfl, hik⟩ := List.append_inj' his rfl
      cases hik
      refine .inr ⟨⟨earlier, j, later, rfl, hj, fun j' hj' => hlater j' ?_⟩, hlater i ?_⟩
      · exact List.mem_append_left _ hj'
      · exact List.mem_append_right _ List.mem_cons_self
  · rintro (h | ⟨⟨earlier, j, later, rfl, hj, hlater⟩, hi⟩)
    · exact ⟨is, i, [], rfl, h, fun _ hj => absurd hj List.not_mem_nil⟩
    · refine ⟨earlier, j, later ++ [i], by simp, hj, fun j' hj' => ?_⟩
      rcases List.mem_append.mp hj' with hj' | hj'
      · exact hlater j' hj'
      · rwa [List.mem_singleton.mp hj']

theorem exists_lastTold_iff : (∃ e, LastTold p is e) ↔ ∃ i ∈ is, ∃ e, i.Teaches p e := by
  constructor
  · rintro ⟨e, earlier, i, later, rfl, hi, _⟩
    exact ⟨i, by simp, e, hi⟩
  · induction is using List.reverseRecOn with
    | nil =>
      rintro ⟨i, hi, _⟩
      cases hi
    | append_singleton is i ih =>
      rintro ⟨j, hj, e, hje⟩
      by_cases hi : ∃ e, i.Teaches p e
      · obtain ⟨e, hie⟩ := hi
        exact ⟨e, lastTold_concat.mpr (.inl hie)⟩
      · rw [not_exists] at hi
        have hj' : j ∈ is := by
          rcases List.mem_append.mp hj with hj | hj
          · exact hj
          · rw [List.mem_singleton.mp hj] at hje
            exact absurd hje (hi e)
        obtain ⟨e', he'⟩ := ih ⟨j, hj', e, hje⟩
        exact ⟨e', lastTold_concat.mpr (.inr ⟨he', hi⟩)⟩

theorem get?_run_iff (hp : p ≠ self) (group : List Endpoint) (is : List Input) (e : Endpoint) :
    ((new self group).run is).routes.get? p = some e ↔ LastTold p is e := by
  induction is using List.reverseRecOn generalizing e with
  | nil => exact iff_of_false (fun h => by cases h) not_lastTold_nil
  | append_singleton is i ih =>
    have hp' : p ≠ ((new self group).run is).self := by rwa [self_run]
    rw [run_append, run, run, get?_input_iff hp', ih, lastTold_concat]

theorem send_of_get?_eq_none (h : u.routes.get? p = none) (link : Link) (m : Message) :
    u.send link (.peer p) m = .error (.noRoute (.peer p)) := by
  rw [send, resolve, h]
  rfl

/-- There is never a route to the transport itself. Whatever is sent to another peer goes where the
last input about it says, and nowhere if there was none. The other inputs change nothing, and there
are as many routes as peers that were ever told of. -/
theorem routes_are_last_told (self : PeerId) (group : List Endpoint) (is : List Input) :
    let u := (new self group).run is
    u.routes.get? self = none ∧
    (∀ p e, p ≠ self → (u.routes.get? p = some e ↔ LastTold p is e)) ∧
    (∀ p e, p ≠ self → LastTold p is e → ∀ link m, u.send link (.peer p) m = (do
      let bytes ← u.encode m
      if link.takes e bytes.length then return (e, bytes)
      else .error (.unreachable (.peer p) "datagram refused"))) ∧
    (∀ p, p ≠ self → (∀ i ∈ is, ∀ e, ¬i.Teaches p e) →
      ∀ link m, u.send link (.peer p) m = .error (.noRoute (.peer p))) ∧
    (∀ i, i.Idle self → u.input i = u) ∧
    ∃ told : Finset PeerId, (∀ p, p ∈ told ↔ p ≠ self ∧ ∃ i ∈ is, ∃ e, i.Teaches p e) ∧
      u.routes.size = told.card := by
  intro u
  have hself : u.self = self := self_run (new self group) is
  have hown : u.routes.get? self = none := get?_self_run (u := new self group) rfl is
  have hget (p : PeerId) (e : Endpoint) (hp : p ≠ self) :
      u.routes.get? p = some e ↔ LastTold p is e := get?_run_iff hp group is e
  refine ⟨hown, hget, ?_, ?_, ?_, ?_⟩
  · intro p e hp hlast link m
    exact send_of_get? ((hget p e hp).mpr hlast) m
  · intro p hp hnever link m
    refine send_of_get?_eq_none (Option.eq_none_iff_forall_ne_some.mpr fun e he => ?_) link m
    obtain ⟨i, hi, e', ht⟩ := exists_lastTold_iff.mp ⟨e, (hget p e hp).mp he⟩
    exact hnever i hi e' ht
  · intro i hidle
    rw [← hself] at hidle
    exact input_of_idle hidle
  · refine ⟨u.routes.keys.toFinset, fun p => ?_, ?_⟩
    · rw [List.mem_toFinset, Table.mem_keys, Table.contains_iff]
      constructor
      · rintro ⟨e, he⟩
        have hp : p ≠ self := by
          rintro rfl
          cases hown.symm.trans he
        exact ⟨hp, exists_lastTold_iff.mp ⟨e, (hget p e hp).mp he⟩⟩
      · rintro ⟨hp, htold⟩
        obtain ⟨e, he⟩ := exists_lastTold_iff.mpr htold
        exact ⟨e, (hget p e hp).mpr he⟩
    · rw [List.toFinset_card_of_nodup u.routes.nodup_keys, Table.length_keys]

def rumours : List Input :=
  [.hint ⟨.filled 3, ["tcp://nope", "udp://127.0.0.1:9"]⟩,
    .hint ⟨.filled 2, ["udp://127.0.0.1:8"]⟩,
    .datagram (.v4 ⟨127, 0, 0, 1⟩ 9700) (Frame.toJson ⟨some (.filled 2), .empty⟩).render,
    .hint ⟨.filled 2, ["tcp://nope"]⟩,
    .hint ⟨.filled 1, ["udp://127.0.0.1:7"]⟩]

theorem letter_outdoes_older_rumour :
    let u := (new (.filled 1) []).run rumours
    u.routes.get? (.filled 1) = none ∧
    u.routes.get? (.filled 2) = some (.v4 ⟨127, 0, 0, 1⟩ 9700) ∧
    (∃ out, u.send .up (.peer (.filled 2)) .empty = .ok (.v4 ⟨127, 0, 0, 1⟩ 9700, out)) ∧
    u.send .up (.peer (.filled 4)) .empty = .error (.noRoute (.peer (.filled 4))) ∧
    u.input (.hint ⟨.filled 2, []⟩) = u ∧
    u.routes.size = 2 := by
  obtain ⟨hown, hget, hsend, hlost, hidle, _⟩ := routes_are_last_told (.filled 1) [] rumours
  have hlast : LastTold (.filled 2) rumours (.v4 ⟨127, 0, 0, 1⟩ 9700) := by
    refine ⟨rumours.take 2, _, rumours.drop 3, rfl, ?_, fun j hj => not_teaches_of_told? ?_⟩
    · rw [teaches_iff]
      decide +kernel
    · have hnone : ∀ j ∈ rumours.drop 3, ∀ o ∈ j.told?, o.1 ≠ .filled 2 := by decide +kernel
      exact hnone j hj
  have hnever : ∀ i ∈ rumours, ∀ o ∈ i.told?, o.1 ≠ .filled 4 := by decide +kernel
  refine ⟨hown, (hget _ _ (by decide)).mpr hlast, ?_, ?_, ?_, ?_⟩
  · refine ⟨(Frame.toJson ⟨some (.filled 1), .empty⟩).render, ?_⟩
    refine (hsend _ _ (by decide) hlast .up .empty).trans ?_
    decide +kernel
  · exact hlost _ (by decide) (fun i hi => not_teaches_of_told? (hnever i hi)) .up .empty
  · exact hidle _ (.unusable (by simp))
  · decide +kernel

end Udp

end LeaseOverlay
