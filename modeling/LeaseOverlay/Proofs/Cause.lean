import LeaseOverlay.Proofs.Operations

namespace LeaseOverlay

inductive Cause
  | notice
  | farewell
  | shutdown
  | revocation
  | challenge
  | expiry
  deriving DecidableEq

namespace Cause

def event (q : PeerId) : Cause → Event
  | notice | farewell | shutdown => .disconnected q
  | revocation | challenge | expiry => .failed q

def notifies : Cause → Bool
  | farewell | shutdown => true
  | notice | revocation | challenge | expiry => false

def Fits (q : PeerId) (a : Action) : Cause → Prop
  | notice => a.control? = some (.disconnect q)
  | farewell => a = .disconnect q
  | shutdown => a = .stop ∨ a = .disconnectAll
  | revocation => ∃ r, a.reply? = some r ∧ r.peer = q ∧ r.lease = none
  | challenge => ∃ delayMs, delayMs ≤ 0 ∧ a = .challenge q delayMs
  | expiry => a = .cycle ∨ a = .tick ∨ ∃ due, a = .expire q due

end Cause

def Control.cause? (q : PeerId) : Control → Option Cause
  | .disconnect p => if p = q then some .notice else none
  | .reply r => if r.peer = q ∧ r.lease = none then some .revocation else none
  | .request _ => none

def Action.cause? (q : PeerId) (a : Action) : Option Cause :=
  match a with
  | .disconnect p => if p = q then some .farewell else none
  | .challenge p delayMs => if p = q ∧ delayMs ≤ 0 then some .challenge else none
  | .expire p _ => if p = q then some .expiry else none
  | .cycle | .tick => some .expiry
  | .stop | .disconnectAll => some .shutdown
  | a => a.control?.bind (Control.cause? q)

namespace Action

theorem cause?_of_control? {a : Action} {c : Control} (h : a.control? = some c) (q : PeerId) :
    a.cause? q = c.cause? q := by
  cases a with
  | reply r source =>
    cases h
    rfl
  | notice p =>
    cases h
    rfl
  | receive m source =>
    simp only [cause?, h, Option.bind_some]
  | _ => cases h

theorem reply?_of_control? {a : Action} {r : LeaseReply} (h : a.control? = some (.reply r)) :
    a.reply? = some r := by
  rw [reply?, h]

theorem control?_of_reply? {a : Action} {r : LeaseReply} (h : a.reply? = some r) :
    a.control? = some (.reply r) := by
  unfold reply? at h
  split at h
  · next hc =>
    cases h
    exact hc
  · cases h

theorem fits_of_control? {a : Action} {m : Control} {q : PeerId} {c : Cause}
    (ha : a.control? = some m) (h : m.cause? q = some c) : c.Fits q a := by
  cases m with
  | request d => cases h
  | reply r =>
    obtain ⟨⟨hpeer, hlease⟩, ⟨⟩⟩ := Option.ite_none_right_eq_some.mp h
    exact ⟨r, reply?_of_control? ha, hpeer, hlease⟩
  | disconnect p =>
    obtain ⟨rfl, ⟨⟩⟩ := Option.ite_none_right_eq_some.mp h
    exact ha

theorem fits_of_cause? {a : Action} {q : PeerId} {c : Cause} (h : a.cause? q = some c) :
    c.Fits q a := by
  cases a with
  | disconnect p =>
    obtain ⟨rfl, ⟨⟩⟩ := Option.ite_none_right_eq_some.mp h
    rfl
  | challenge p delayMs =>
    obtain ⟨⟨rfl, hd⟩, ⟨⟩⟩ := Option.ite_none_right_eq_some.mp h
    exact ⟨delayMs, hd, rfl⟩
  | expire p due =>
    obtain ⟨rfl, ⟨⟩⟩ := Option.ite_none_right_eq_some.mp h
    exact .inr (.inr ⟨due, rfl⟩)
  | cycle =>
    cases h
    exact .inl rfl
  | tick =>
    cases h
    exact .inr (.inl rfl)
  | stop =>
    cases h
    exact .inl rfl
  | disconnectAll =>
    cases h
    exact .inr rfl
  | reply r source => exact fits_of_control? rfl h
  | notice p => exact fits_of_control? rfl h
  | receive m source =>
    have hb : (Action.receive m source).control?.bind (Control.cause? q) = some c := h
    obtain ⟨m', hm, hc⟩ := Option.bind_eq_some_iff.mp hb
    exact fits_of_control? hm hc
  | _ => cases h

end Action

namespace Turn

def Ends (t : Turn) (q : PeerId) (e : Event) : Prop :=
  ∃ c, t.action.cause? q = some c ∧ c.event q = e

def Offers (t : Turn) (q : PeerId) (lease : Time) : Prop :=
  ∃ r, t.action.reply? = some r ∧ r.peer = q ∧ r.lease = some lease

def Permits (self : PeerId) (t : Turn) : Change → Prop
  | .told e => ∀ q, e.notice? self = some q → ∃ c, t.action.cause? q = some c ∧ c.notifies = true
  | .admitted now q _ lease | .renewed now q _ lease | .prolonged now q _ lease =>
    now = t.now ∧ t.Offers q lease
  | .shrunk now q delay => now = t.now ∧
    ∃ delayMs : Int, 0 < delayMs ∧ t.action = .challenge q delayMs ∧
      delay = .ofMillis delayMs.toNat
  | .lost now q => now = t.now ∧ t.Ends q (.failed q) ∧ t.action.cause? q ≠ some .expiry
  | .expired now q due => now = t.now ∧ t.Ends q (.failed q) ∧
    (due = t.now ∨ t.action = .expire q due)
  | .parted now q => now = t.now ∧ t.Ends q (.disconnected q)
  | .closed => t.action = .stop ∨ t.action = .stopLease ∨ t.action = .brace

variable {self : PeerId} {t : Turn}

theorem quiet_permits (self : PeerId) (t : Turn) : Quiet self (t.Permits self) := by
  intro e _ hn q hq
  rw [hn] at hq
  cases hq

theorem grants_of_reply {r : LeaseReply} (h : t.action.reply? = some r) {lease : Time}
    (hl : r.lease = some lease) : Grants (t.Permits self) t.now r.peer lease := by
  have ho : t.now = t.now ∧ t.Offers r.peer lease := ⟨rfl, r, h, rfl, hl⟩
  exact ⟨fun _ => ho, fun _ => ho, fun _ => ho⟩

end Turn

end LeaseOverlay
