import LeaseOverlay.Proofs.Identity
import LeaseOverlay.Proofs.Trimming
import LeaseOverlay.Seed

namespace LeaseOverlay

namespace Candidate

section Split

variable {sep cs a b : List Char} {x : Char}

theorem append_of_splitFirst (h : splitFirst sep cs = some (a, b)) : cs = a ++ (sep ++ b) := by
  induction cs generalizing a with
  | nil =>
    rw [splitFirst] at h
    split at h
    · next hsep =>
      cases h
      simpa using hsep
    · cases h
  | cons c cs ih =>
    rw [splitFirst] at h
    split at h
    · next rest hrest =>
      cases h
      exact (List.isPrefixOf?_eq_some_iff_append_eq.mp hrest).symm
    · obtain ⟨⟨a', b'⟩, hrest, heq⟩ := Option.map_eq_some_iff.mp h
      cases heq
      rw [ih hrest, List.cons_append]

theorem isPrefixOf?_eq_none {c : Char} (h : x ≠ c) : (x :: sep).isPrefixOf? (c :: cs) = none := by
  simp [List.isPrefixOf?, h]

theorem splitFirst_append (h : x ∉ a) (sep b : List Char) :
    splitFirst (x :: sep) (a ++ (x :: sep ++ b)) = some (a, b) := by
  induction a with
  | nil =>
    have hprefix : (x :: sep).isPrefixOf? (x :: sep ++ b) = some b :=
      List.isPrefixOf?_eq_some_iff_append_eq.mpr rfl
    rw [List.nil_append, List.cons_append, splitFirst, ← List.cons_append, hprefix]
  | cons c a ih =>
    rw [List.mem_cons, not_or] at h
    rw [List.cons_append, splitFirst, isPrefixOf?_eq_none h.1, ih h.2]
    rfl

theorem splitFirst_eq_none (h : x ∉ cs) (sep : List Char) : splitFirst (x :: sep) cs = none := by
  induction cs with
  | nil => rfl
  | cons c cs ih =>
    rw [List.mem_cons, not_or] at h
    rw [splitFirst, isPrefixOf?_eq_none h.1, ih h.2]
    rfl

theorem exists_eq_append_of_notMem {ds : List Char} (hx : x ∉ cs) (h : cs ++ ds = a ++ x :: b) :
    ∃ a', a = cs ++ a' := by
  rcases List.append_eq_append_iff.mp h with ⟨as, ha, _⟩ | ⟨as, rfl, htail⟩
  · exact ⟨as, ha⟩
  · cases as with
    | nil => exact ⟨[], by simp⟩
    | cons y as =>
      cases List.head_eq_of_cons_eq htail
      simp at hx

theorem append_cons_ne {a' b' : List Char} {y : Char} (hxy : x ≠ y) (hx : x ∉ a') (hy : y ∉ a) :
    a ++ x :: b ≠ a' ++ y :: b' := by
  intro h
  have hx' : x ∉ a' ++ [y] := by simp [hx, hxy]
  have hsplit : a' ++ [y] ++ b' = a ++ x :: b := by simpa using h.symm
  obtain ⟨a'', rfl⟩ := exists_eq_append_of_notMem hx' hsplit
  simp at hy

end Split

section Divide

variable {id rest scheme authority cs address : List Char} {peer : Option PeerId}

theorem divide_of_id (hat : '@' ∉ id) (hcolon : ':' ∉ id) (rest : List Char) :
    divide (id ++ '@' :: rest) =
      (PeerId.ofString? (String.ofList id)).map fun p => (some p, rest) := by
  have hsplit : splitFirst ['@'] (id ++ '@' :: rest) = some (id, rest) :=
    splitFirst_append hat [] rest
  rw [divide, hsplit]
  dsimp only
  rw [schemeMark, splitFirst_eq_none hcolon]
  rfl

theorem divide_of_scheme (hat : '@' ∉ scheme) (hcolon : ':' ∉ scheme) (authority : List Char) :
    divide (scheme ++ (schemeMark ++ authority)) =
      some (none, scheme ++ (schemeMark ++ authority)) := by
  rw [divide]
  split
  · next a b hsplit =>
    have hat' : '@' ∉ scheme ++ schemeMark := by
      rw [List.mem_append, not_or]
      exact ⟨hat, by decide⟩
    have heq := append_of_splitFirst hsplit
    rw [← List.append_assoc] at heq
    obtain ⟨a', rfl⟩ := exists_eq_append_of_notMem hat' heq
    have hfound : splitFirst schemeMark (scheme ++ schemeMark ++ a') = some (scheme, a') := by
      rw [List.append_assoc]
      exact splitFirst_append hcolon _ a'
    rw [hfound]
    rfl
  · rfl

theorem divide_cases (h : divide cs = some (peer, address)) :
    (peer = none ∧ address = cs) ∨
    ∃ id p, cs = id ++ '@' :: address ∧ PeerId.ofString? (String.ofList id) = some p ∧
      peer = some p := by
  rw [divide] at h
  split at h
  · next id rest hsplit =>
    split at h
    · cases h
      exact .inl ⟨rfl, rfl⟩
    · obtain ⟨p, hp, heq⟩ := Option.map_eq_some_iff.mp h
      cases heq
      exact .inr ⟨id, p, append_of_splitFirst hsplit, hp, rfl⟩
  · cases h
    exact .inl ⟨rfl, rfl⟩

end Divide

end Candidate

structure Spelling where
  id : Option String
  scheme : String
  authority : String

namespace Spelling

def text (t : Spelling) : String :=
  t.id.elim "" (· ++ "@") ++ (t.scheme ++ "://" ++ t.authority)

def IsSchemeChar (c : Char) : Prop := c.isAlphanum = true ∨ c = '+' ∨ c = '-'

structure Proper (t : Spelling) : Prop where
  id : ∀ id ∈ t.id, id.length = 64 ∧ ∀ c ∈ id.toList, Hex.IsDigit c
  scheme_ne : t.scheme ≠ ""
  scheme : ∀ c ∈ t.scheme.toList, IsSchemeChar c
  authority_ne : t.authority ≠ ""

structure Means (t : Spelling) (c : Candidate) : Prop where
  peer : c.peer.map PeerId.text = t.id.map String.toLower
  address : c.address = t.scheme ++ "://" ++ t.authority
  route : c.route = none

instance (c : Char) : Decidable (IsSchemeChar c) := inferInstanceAs (Decidable (_ ∨ _))

variable {t u : Spelling} {c d : Candidate} {s : String}

theorem isSchemeChar_iff {c : Char} : Candidate.isSchemeChar c = true ↔ IsSchemeChar c := by
  simp [Candidate.isSchemeChar, IsSchemeChar, or_assoc]

theorem toList_address (scheme authority : String) :
    (scheme ++ "://" ++ authority).toList =
      scheme.toList ++ (Candidate.schemeMark ++ authority.toList) := by
  rw [String.toList_append, String.toList_append, List.append_assoc]
  rfl

theorem toList_text (t : Spelling) :
    t.text.toList = t.id.elim [] (fun id => id.toList ++ ['@']) ++
      (t.scheme ++ "://" ++ t.authority).toList := by
  rw [text, String.toList_append]
  cases t.id with
  | none => rfl
  | some id => rw [Option.elim_some, Option.elim_some, String.toList_append]; rfl

theorem isAddress_iff {cs : List Char} :
    Candidate.isAddress cs = true ↔ ∃ scheme authority : String,
      cs = (scheme ++ "://" ++ authority).toList ∧ scheme ≠ "" ∧
      (∀ c ∈ scheme.toList, IsSchemeChar c) ∧ authority ≠ "" := by
  constructor
  · intro h
    rw [Candidate.isAddress] at h
    split at h
    · next scheme authority hsplit =>
      simp only [Bool.and_eq_true, Bool.not_eq_true', List.isEmpty_eq_false_iff, List.all_eq_true,
        isSchemeChar_iff] at h
      obtain ⟨⟨hscheme, hchars⟩, hauthority⟩ := h
      refine ⟨String.ofList scheme, String.ofList authority, ?_, ?_, ?_, ?_⟩
      · rw [toList_address, String.toList_ofList, String.toList_ofList]
        exact Candidate.append_of_splitFirst hsplit
      · simpa using hscheme
      · simpa using hchars
      · simpa using hauthority
    · cases h
  · rintro ⟨scheme, authority, rfl, hscheme, hchars, hauthority⟩
    have hcolon : ':' ∉ scheme.toList := fun hmem => absurd (hchars _ hmem) (by decide)
    have hsplit : Candidate.splitFirst Candidate.schemeMark (scheme ++ "://" ++ authority).toList =
        some (scheme.toList, authority.toList) := by
      rw [toList_address]
      exact Candidate.splitFirst_append hcolon _ _
    rw [Candidate.isAddress, hsplit]
    simpa [isSchemeChar_iff, hscheme, hauthority] using hchars

theorem Proper.at_notMem_scheme (h : t.Proper) : '@' ∉ t.scheme.toList :=
  fun hmem => absurd (h.scheme _ hmem) (by decide)

theorem Proper.colon_notMem_scheme (h : t.Proper) : ':' ∉ t.scheme.toList :=
  fun hmem => absurd (h.scheme _ hmem) (by decide)

theorem Proper.notMem_id (h : t.Proper) {id : String} (hid : t.id = some id) {x : Char}
    (hx : ¬Hex.IsDigit x) : x ∉ id.toList :=
  fun hmem => hx ((h.id id hid).2 x hmem)

theorem Proper.exists_means (h : t.Proper) : ∃ c, t.Means c := by
  cases hid : t.id with
  | none => exact ⟨⟨_, none, none⟩, by rw [hid]; rfl, rfl, rfl⟩
  | some id =>
    obtain ⟨p, hp⟩ := PeerId.exists_ofString?_iff.mpr (h.id id hid)
    refine ⟨⟨_, some p, none⟩, ?_, rfl, rfl⟩
    rw [hid, Option.map_some, Option.map_some, PeerId.ofString?_eq_some_iff.mp hp]

theorem divide_text (ht : t.Proper) (hc : t.Means c) :
    Candidate.divide t.text.toList = some (c.peer, c.address.toList) := by
  rw [toList_text, hc.address]
  have hpeer := hc.peer
  cases hid : t.id with
  | none =>
    rw [hid, Option.map_none, Option.map_eq_none_iff] at hpeer
    rw [Option.elim_none, List.nil_append, toList_address, hpeer]
    exact Candidate.divide_of_scheme ht.at_notMem_scheme ht.colon_notMem_scheme _
  | some id =>
    rw [hid, Option.map_some, Option.map_eq_some_iff] at hpeer
    obtain ⟨p, hp, hid'⟩ := hpeer
    have hat := ht.notMem_id hid (x := '@') (by decide)
    have hcolon := ht.notMem_id hid (x := ':') (by decide)
    rw [Option.elim_some, List.append_assoc, List.singleton_append,
      Candidate.divide_of_id hat hcolon, String.ofList_toList,
      PeerId.ofString?_eq_some_iff.mpr hid', hp]
    rfl

theorem Proper.isAddress (h : t.Proper) :
    Candidate.isAddress (t.scheme ++ "://" ++ t.authority).toList = true :=
  isAddress_iff.mpr ⟨_, _, rfl, h.scheme_ne, h.scheme, h.authority_ne⟩

theorem parse_of_text (ht : t.Proper) (hs : Blank.trim s = t.text) (hc : t.Means c) :
    Candidate.parse s = .ok c := by
  have hstrip : Blank.strip s.toList = t.text.toList := by
    rw [← hs, Blank.trim, String.toList_ofList]
  have haddress : Candidate.isAddress c.address.toList = true := hc.address ▸ ht.isAddress
  rw [Candidate.parse, hstrip, divide_text ht hc]
  dsimp only
  rw [if_pos haddress, String.ofList_toList, ← hc.route]

theorem exists_of_parse (h : Candidate.parse s = .ok c) :
    ∃ t : Spelling, t.Proper ∧ Blank.trim s = t.text ∧ t.Means c := by
  rw [Candidate.parse] at h
  split at h
  · next peer address hdivide =>
    split at h
    · next haddress =>
      cases h
      obtain ⟨scheme, authority, rfl, hscheme, hchars, hauthority⟩ := isAddress_iff.mp haddress
      rcases Candidate.divide_cases hdivide with ⟨rfl, hcs⟩ | ⟨id, p, hcs, hp, rfl⟩
      · refine ⟨⟨none, scheme, authority⟩, ⟨by simp, hscheme, hchars, hauthority⟩, ?_, rfl, ?_, rfl⟩
        · rw [← String.toList_inj, Blank.trim, String.toList_ofList, toList_text, ← hcs]
          rfl
        · exact String.ofList_toList
      · refine ⟨⟨some (String.ofList id), scheme, authority⟩, ⟨?_, hscheme, hchars, hauthority⟩,
          ?_, ?_, ?_, rfl⟩
        · rintro _ ⟨⟩
          exact PeerId.exists_ofString?_iff.mp ⟨p, hp⟩
        · rw [← String.toList_inj, Blank.trim, String.toList_ofList, toList_text, hcs,
            Option.elim_some, String.toList_ofList, List.append_assoc]
          rfl
        · exact congrArg some (PeerId.ofString?_eq_some_iff.mp hp)
        · exact String.ofList_toList
    · cases h
  · cases h

theorem Proper.address_injective (ht : t.Proper) (hu : u.Proper)
    (h : t.scheme ++ "://" ++ t.authority = u.scheme ++ "://" ++ u.authority) :
    t.scheme = u.scheme ∧ t.authority = u.authority := by
  have hsplit := congrArg (Candidate.splitFirst Candidate.schemeMark ∘ String.toList) h
  simp only [Function.comp_apply, toList_address] at hsplit
  rw [Candidate.schemeMark, Candidate.splitFirst_append ht.colon_notMem_scheme,
    Candidate.splitFirst_append hu.colon_notMem_scheme] at hsplit
  obtain ⟨hscheme, hauthority⟩ := Prod.mk.inj (Option.some.inj hsplit)
  exact ⟨String.toList_inj.mp hscheme, String.toList_inj.mp hauthority⟩

theorem Proper.ne_text_of_id (ht : t.Proper) (hu : u.Proper) {id : String} (hid : t.id = some id)
    (hnone : u.id = none) : t.text ≠ u.text := by
  intro h
  have htexts := congrArg String.toList h
  rw [toList_text, toList_text, hid, hnone, toList_address u.scheme, Option.elim_some,
    Option.elim_none, List.append_assoc, List.singleton_append, List.nil_append,
    Candidate.schemeMark, List.cons_append] at htexts
  exact Candidate.append_cons_ne (by decide) hu.at_notMem_scheme (ht.notMem_id hid (by decide))
    htexts

theorem text_injective (ht : t.Proper) (hu : u.Proper) (h : t.text = u.text) : t = u := by
  have htexts := congrArg String.toList h
  rw [toList_text, toList_text] at htexts
  have hparts : t.id = u.id ∧
      (t.scheme ++ "://" ++ t.authority).toList = (u.scheme ++ "://" ++ u.authority).toList := by
    cases hid : t.id with
    | none =>
      cases hid' : u.id with
      | none => exact ⟨rfl, by simpa [hid, hid'] using htexts⟩
      | some id' => exact absurd h.symm (hu.ne_text_of_id ht hid' hid)
    | some id =>
      cases hid' : u.id with
      | none => exact absurd h (ht.ne_text_of_id hu hid hid')
      | some id' =>
        have hsplit := congrArg (Candidate.splitFirst ['@']) htexts
        rw [hid, hid', Option.elim_some, Option.elim_some, List.append_assoc, List.append_assoc,
          Candidate.splitFirst_append (ht.notMem_id hid (by decide)),
          Candidate.splitFirst_append (hu.notMem_id hid' (by decide))] at hsplit
        obtain ⟨hids, hrest⟩ := Prod.mk.inj (Option.some.inj hsplit)
        exact ⟨congrArg some (String.toList_inj.mp hids), hrest⟩
  obtain ⟨hscheme, hauthority⟩ := ht.address_injective hu (String.toList_inj.mp hparts.2)
  obtain ⟨id, scheme, authority⟩ := t
  obtain ⟨id', scheme', authority'⟩ := u
  cases hparts.1
  cases hscheme
  cases hauthority
  rfl

theorem IsSchemeChar.not_blank {c : Char} (h : IsSchemeChar c) : isBlank c = false := by
  rcases h with h | rfl | rfl
  · have hkind : (c.isUpper || c.isLower || c.isDigit) = true := h
    have hrange : 48 ≤ c.toNat ∧ c.toNat ≤ 122 := by
      rw [Bool.or_eq_true, Bool.or_eq_true] at hkind
      rcases hkind with (hupper | hlower) | hdigit
      · have hbounds : 65 ≤ c.toNat ∧ c.toNat ≤ 90 := of_decide_eq_true hupper
        omega
      · have hbounds := Bool.and_eq_true_iff.mp hlower
        have hge : 97 ≤ c.toNat := of_decide_eq_true hbounds.1
        have hle : c.toNat ≤ 122 := of_decide_eq_true hbounds.2
        omega
      · have hbounds := Bool.and_eq_true_iff.mp hdigit
        have hge : 48 ≤ c.toNat := of_decide_eq_true hbounds.1
        have hle : c.toNat ≤ 57 := of_decide_eq_true hbounds.2
        omega
    exact Blank.isBlank_eq_false (by omega) (by omega)
  · decide
  · decide

theorem not_blank_of_isDigit {c : Char} (h : Hex.IsDigit c) : isBlank c = false := by
  have hge {d : Char} (hd : 33 ≤ d.toNat) (hc : d ≤ c) : 33 ≤ c.toNat :=
    Nat.le_trans hd (Char.le_def.mp hc)
  have hc : 33 ≤ c.toNat := by
    rcases h with ⟨h, _⟩ | ⟨h, _⟩ | ⟨h, _⟩
    · exact hge (by decide) h
    · exact hge (by decide) h
    · exact hge (by decide) h
  exact Blank.isBlank_eq_false hc (Hex.ascii_of_isDigit h)

theorem Proper.getLast?_text (h : t.Proper) :
    t.text.toList.getLast? = t.authority.toList.getLast? := by
  have hne : t.authority.toList ≠ [] := by simpa using h.authority_ne
  rw [toList_text, toList_address, ← List.append_assoc, ← List.append_assoc,
    List.getLast?_append_of_ne_nil _ hne]

theorem Proper.head?_text (h : t.Proper) : ∀ c ∈ t.text.toList.head?, isBlank c = false := by
  intro c hc
  rw [toList_text, toList_address] at hc
  have hscheme : t.scheme.toList ≠ [] := by simpa using h.scheme_ne
  cases hid : t.id with
  | none =>
    rw [hid, Option.elim_none, List.nil_append, List.head?_append_of_ne_nil _ hscheme] at hc
    exact (h.scheme c (List.mem_of_mem_head? hc)).not_blank
  | some id =>
    obtain ⟨hlength, hdigits⟩ := h.id id hid
    have hne : id.toList ≠ [] := by
      intro hnil
      rw [← String.length_toList, hnil] at hlength
      cases hlength
    rw [hid, Option.elim_some, List.append_assoc, List.head?_append_of_ne_nil _ hne] at hc
    exact not_blank_of_isDigit (hdigits c (List.mem_of_mem_head? hc))

end Spelling

def Candidate.text (c : Candidate) : String := c.peer.elim "" (·.text ++ "@") ++ c.address

namespace Spelling

variable {c : Candidate} {s : String}

theorem toLower_text (p : PeerId) : p.text.toLower = p.text :=
  (PeerId.ofString?_eq_some_iff.mp p.ofString?_text).symm

theorem parse_text (h : Candidate.parse s = .ok c) : Candidate.parse c.text = .ok c := by
  obtain ⟨t, ht, hs, hc⟩ := exists_of_parse h
  let u : Spelling := ⟨c.peer.map PeerId.text, t.scheme, t.authority⟩
  have hu : u.Proper := by
    refine ⟨fun id hid => ?_, ht.scheme_ne, ht.scheme, ht.authority_ne⟩
    obtain ⟨p, _, rfl⟩ := Option.map_eq_some_iff.mp hid
    exact PeerId.exists_ofString?_iff.mp ⟨p, p.ofString?_text⟩
  have htext : c.text = u.text := by
    have hid : u.id.elim "" (· ++ "@") = c.peer.elim "" (·.text ++ "@") :=
      Option.elim_map c.peer
    rw [Candidate.text, text, hc.address, hid]
  have hmeans : u.Means c := by
    refine ⟨?_, hc.address, hc.route⟩
    rw [Option.map_map]
    exact congrArg (c.peer.map ·) (funext fun p => (toLower_text p).symm)
  -- nothing blank has come to the end of the text, which is that of the authority
  have hbare : Blank.Bare c.text.toList := by
    have hstripped : Blank.Bare t.text.toList := by
      rw [← hs, Blank.trim, String.toList_ofList]
      exact Blank.bare_strip _
    rw [htext]
    refine ⟨hu.head?_text, ?_⟩
    rw [hu.getLast?_text, ← ht.getLast?_text]
    exact hstripped.last
  have htrim : Blank.trim c.text = u.text := by
    rw [Blank.trim, Blank.strip_of_bare hbare, String.ofList_toList, htext]
  exact parse_of_text hu htrim hmeans

theorem error_of_parse {e : SeedError} (h : Candidate.parse s = .error e) :
    e = .invalid (Blank.trim s) := by
  rw [Candidate.parse] at h
  split at h
  · split at h <;> cases h
    rfl
  · cases h
    rfl

/-- A text is read as a candidate if, apart from white space around it, it is properly spelled, and
the candidate is what the spelling means. There is one spelling at most. A candidate that was read
is read again from its own text. -/
theorem seeds_are_properly_spelled :
    (∀ s, (∃ c, Candidate.parse s = .ok c) ↔ ∃ t : Spelling, t.Proper ∧ Blank.trim s = t.text) ∧
    (∀ s c, Candidate.parse s = .ok c ↔
      ∃ t : Spelling, t.Proper ∧ Blank.trim s = t.text ∧ t.Means c) ∧
    (∀ s e, Candidate.parse s = .error e → e = .invalid (Blank.trim s)) ∧
    (∀ t u : Spelling, t.Proper → u.Proper → t.text = u.text → t = u) ∧
    ∀ s c, Candidate.parse s = .ok c → Candidate.parse c.text = .ok c := by
  refine ⟨fun s => ⟨?_, ?_⟩, fun s c => ⟨exists_of_parse, ?_⟩, fun _ _ => error_of_parse,
    fun _ _ => text_injective, fun _ _ => parse_text⟩
  · rintro ⟨c, h⟩
    obtain ⟨t, ht, hs, _⟩ := exists_of_parse h
    exact ⟨t, ht, hs⟩
  · rintro ⟨t, ht, hs⟩
    obtain ⟨c, hc⟩ := ht.exists_means
    exact ⟨c, parse_of_text ht hs hc⟩
  · rintro ⟨t, ht, hs, hc⟩
    exact parse_of_text ht hs hc

def ornate : Spelling :=
  ⟨some (String.ofList (List.replicate 64 'A')), "udp+x", "me@here://there"⟩

theorem ornate_seed_is_read_and_read_again :
    let c : Candidate := ⟨"udp+x://me@here://there", some (.filled 0xAA), none⟩
    ornate.Proper ∧
    Candidate.parse ("\u00a0\t" ++ ornate.text ++ "\n") = .ok c ∧
    c.text = String.ofList (List.replicate 64 'a') ++ "@udp+x://me@here://there" ∧
    Candidate.parse c.text = .ok c := by
  intro c
  have hscheme : "udp+x".toList.all Candidate.isSchemeChar = true := by decide
  have hproper : ornate.Proper := by
    refine ⟨?_, by decide, ?_, by decide⟩
    · rintro _ ⟨⟩
      exact PeerId.exists_ofString?_iff.mp ⟨.filled 0xAA, by decide +kernel⟩
    · exact fun c hc => isSchemeChar_iff.mp (List.all_eq_true.mp hscheme c hc)
  have hmeans : ornate.Means c := ⟨by decide +kernel, by decide +kernel, rfl⟩
  obtain ⟨_, hread, _, _, hagain⟩ := seeds_are_properly_spelled
  have hparse := (hread ("\u00a0\t" ++ ornate.text ++ "\n") c).mpr
    ⟨ornate, hproper, by decide +kernel, hmeans⟩
  exact ⟨hproper, hparse, by decide +kernel, hagain _ c hparse⟩

end Spelling

end LeaseOverlay
