import LeaseOverlay.Proofs.Numeral
import LeaseOverlay.Endpoint

namespace LeaseOverlay

open Reading

namespace Ipv4

variable {cs rest : List Char}

theorem octet_digits (o : UInt8) (h : Bare Decimal.digit? rest) :
    octet (Nat.toDigits 10 o.toNat ++ rest) = some (o, rest) := by
  have ho := o.toNat_lt
  have hlength : (Nat.toDigits 10 o.toNat).length ≤ 3 :=
    (Nat.length_toDigits_le_iff (by decide) (by decide)).mpr (by omega)
  have hread := number_toDigits (faithful_decimal (some 3) false) ho
    (by rintro _ ⟨⟩; exact hlength) h
  rw [octet, hread, Option.map_some, UInt8.ofNat_toNat]

theorem toList_text (ip : Ipv4) : ip.text.toList =
    Nat.toDigits 10 ip.a.toNat ++ '.' :: (Nat.toDigits 10 ip.b.toNat ++
      '.' :: (Nat.toDigits 10 ip.c.toNat ++ '.' :: Nat.toDigits 10 ip.d.toNat)) := by
  simp [text, String.intercalate_cons_cons, String.intercalate_singleton]

theorem after_dot_octet (o : UInt8) (h : Bare Decimal.digit? rest) :
    after '.' octet ('.' :: (Nat.toDigits 10 o.toNat ++ rest)) = some (o, rest) := by
  rw [after, skip_self, Option.bind_some, octet_digits o h]

theorem read_text (ip : Ipv4) (h : Bare Decimal.digit? rest) :
    read (ip.text.toList ++ rest) = some (ip, rest) := by
  have hdot (cs : List Char) : Bare Decimal.digit? ('.' :: cs) := bare_cons_iff.mpr (by decide)
  rw [toList_text]
  simp only [read, List.append_assoc, List.cons_append, octet_digits ip.a (hdot _),
    after_dot_octet ip.b (hdot _), after_dot_octet ip.c (hdot _), after_dot_octet ip.d h,
    Option.bind_eq_bind, Option.bind_some, Option.pure_def]

theorem read_eq_none
    (h : (cs.dropWhile fun c => (Decimal.digit? c).isSome).head? ≠ some '.') : read cs = none := by
  rw [read]
  cases hoctet : octet cs with
  | none => rfl
  | some r =>
    obtain ⟨o, rest⟩ := r
    obtain ⟨⟨m, rest'⟩, hnumber, heq⟩ := Option.map_eq_some_iff.mp hoctet
    cases heq
    have hskip : after '.' octet rest' = none := by
      rw [after, rest_of_number hnumber, skip_of_head? h, Option.bind_none]
    simp only [Option.bind_eq_bind, Option.bind_some, hskip, Option.bind_none]

theorem read_of_bare (h : Bare Decimal.digit? cs) : read cs = none := by
  have hnone : number ⟨10, Decimal.digit?, some 3, false⟩ 256 cs = none := number_of_bare h 256
  rw [read, octet, hnone]
  rfl

theorem groups_ofGroups (hi lo : UInt16) : (ofGroups hi lo).groups = [hi, lo] := by
  have hsplit (g : UInt16) : UInt16.ofNat (256 * (UInt8.ofNat (g.toNat / 256)).toNat +
      (UInt8.ofNat g.toNat).toNat) = g := by
    have hg := g.toNat_lt
    rw [← UInt16.toNat_inj, UInt16.toNat_ofNat', UInt8.toNat_ofNat', UInt8.toNat_ofNat']
    omega
  rw [groups, ofGroups, hsplit hi, hsplit lo]

end Ipv4

namespace Ipv6

def digits (g : UInt16) : List Char := Hex.ofNat g.toNat

variable {cs rest : List Char} {gs : List UInt16}

theorem bare_decimal_of_bare (h : Bare Hex.value? cs) : Bare Decimal.digit? cs := by
  intro c hc
  have hdigit : ∀ n < 128, Hex.value? (Char.ofNat n) = none →
      Decimal.digit? (Char.ofNat n) = none := by decide
  by_cases hascii : c.toNat < 128
  · simpa using hdigit c.toNat hascii (by simpa using h c hc)
  · refine if_neg fun hd => hascii ?_
    simp only [Char.isDigit, Bool.and_eq_true, decide_eq_true_eq] at hd
    exact Nat.lt_of_le_of_lt (UInt32.le_iff_toNat_le.mp hd.2) (by decide)

theorem group_digits (g : UInt16) (h : Bare Hex.value? rest) :
    group (digits g ++ rest) = some (g, rest) := by
  have hg := g.toNat_lt
  have hlength : (Nat.toDigits 16 g.toNat).length ≤ 4 :=
    (Nat.length_toDigits_le_iff (by decide) (by decide)).mpr (by omega)
  have hread := number_toDigits (faithful_hexadecimal (some 4) true) hg
    (by rintro _ ⟨⟩; exact hlength) h
  rw [group, digits, Hex.ofNat, hread, Option.map_some, UInt16.ofNat_toNat]

theorem group_of_bare (h : Bare Hex.value? cs) : group cs = none := by
  have hnone : number ⟨16, Hex.value?, some 4, true⟩ 0x10000 cs = none := number_of_bare h 0x10000
  rw [group, hnone, Option.map_none]

structure Ends (rest : List Char) : Prop where
  bare : Bare Hex.value? rest
  dot : rest.head? ≠ some '.'
  colon : ∀ cs, rest = ':' :: cs → Bare Hex.value? cs

theorem not_dot_behind_digits (hdot : rest.head? ≠ some '.') (hbare : Bare Hex.value? rest)
    {ds : List Char} (hds : '.' ∉ ds) :
    ((ds ++ rest).dropWhile fun c => (Decimal.digit? c).isSome).head? ≠ some '.' := by
  induction ds with
  | nil => rwa [List.nil_append, dropWhile_of_bare (bare_decimal_of_bare hbare)]
  | cons d ds ih =>
    rw [List.mem_cons, not_or] at hds
    obtain ⟨hd, hds⟩ := hds
    rw [List.cons_append, List.dropWhile_cons]
    split
    · exact ih hds
    · simpa using Ne.symm hd

theorem dot_notMem_digits (g : UInt16) : '.' ∉ digits g := by
  intro h
  have hdot := (faithful_hexadecimal none true).value_of_mem g.toNat '.' h
  exact absurd hdot (by decide)

theorem ipv4_of_digits (hdot : rest.head? ≠ some '.') (hbare : Bare Hex.value? rest) (g : UInt16) :
    Ipv4.read (digits g ++ rest) = none :=
  Ipv4.read_eq_none (not_dot_behind_digits hdot hbare (dot_notMem_digits g))

theorem after_colon_of_ends {α : Type} {read : Reading α}
    (hread : ∀ cs, Bare Hex.value? cs → read cs = none) (h : Ends rest) :
    after ':' read rest = none := by
  cases rest with
  | nil => rfl
  | cons c cs =>
    by_cases hc : c = ':'
    · subst hc
      rw [after, skip_self, Option.bind_some, hread _ (h.colon cs rfl)]
    · rw [after, skip_of_head? (by simpa using hc), Option.bind_none]

theorem piece_of_ends {α : Type} {read : Reading α}
    (hread : ∀ cs, Bare Hex.value? cs → read cs = none) (h : Ends rest) (first : Bool) :
    piece first read rest = none := by
  cases first with
  | true => exact hread _ h.bare
  | false => exact after_colon_of_ends hread h

theorem readRun_of_ends (h : Ends rest) (limit : Nat) (first : Bool) :
    readRun limit first rest = ⟨[], false, rest⟩ := by
  cases limit with
  | zero => rfl
  | succ limit =>
    have hshort := piece_of_ends (fun _ hcs => Ipv4.read_of_bare (bare_decimal_of_bare hcs)) h first
    have hgroup := piece_of_ends (fun _ hcs => group_of_bare hcs) h first
    simp only [readRun, hshort, hgroup, ite_self]

def tail (gs : List UInt16) : List Char := gs.flatMap fun g => ':' :: digits g

theorem toList_joinGroups_cons (g : UInt16) (gs : List UInt16) :
    (joinGroups (g :: gs)).toList = digits g ++ tail gs := by
  induction gs generalizing g with
  | nil => simp [joinGroups, digits, tail]
  | cons h gs ih =>
    have hjoin : joinGroups (g :: h :: gs) =
        String.ofList (digits g) ++ ":" ++ joinGroups (h :: gs) := by
      simp [joinGroups, digits, String.intercalate_cons_cons]
    rw [hjoin, String.toList_append, String.toList_append, String.toList_ofList, ih]
    simp [tail]

theorem bare_tail (h : Ends rest) (gs : List UInt16) : Bare Hex.value? (tail gs ++ rest) ∧
    (tail gs ++ rest).head? ≠ some '.' := by
  cases gs with
  | nil => exact ⟨h.bare, h.dot⟩
  | cons g gs => exact ⟨bare_cons_iff.mpr (show Hex.value? ':' = none by decide), by simp [tail]⟩

theorem readRun_cons (g : UInt16) (limit : Nat) (first : Bool) (hbare : Bare Hex.value? rest)
    (hdot : rest.head? ≠ some '.') :
    readRun (limit + 1) first ((if first then [] else [':']) ++ digits g ++ rest) =
      let r := readRun limit false rest
      ⟨g :: r.groups, r.embedded, r.rest⟩ := by
  have hshort := ipv4_of_digits hdot hbare g
  have hgroup := group_digits g hbare
  cases first with
  | true => simp [readRun, piece, hshort, hgroup]
  | false => simp [readRun, piece, after, skip_self, hshort, hgroup]

theorem readRun_tail (h : Ends rest) {limit : Nat} (hlimit : gs.length ≤ limit) :
    readRun limit false (tail gs ++ rest) = ⟨gs, false, rest⟩ := by
  induction gs generalizing limit with
  | nil => exact readRun_of_ends h limit false
  | cons g gs ih =>
    obtain ⟨limit, rfl⟩ : ∃ k, limit = k + 1 := ⟨limit - 1, by simp at hlimit; omega⟩
    obtain ⟨hbare, hdot⟩ := bare_tail h gs
    have hstep := readRun_cons g limit false hbare hdot
    rw [ih (by simpa using hlimit)] at hstep
    simpa [tail] using hstep

theorem readRun_joinGroups (gs : List UInt16) (h : Ends rest) (limit : Nat)
    (hlimit : gs.length ≤ limit) :
    readRun limit true ((joinGroups gs).toList ++ rest) = ⟨gs, false, rest⟩ := by
  cases gs with
  | nil => exact readRun_of_ends h limit true
  | cons g gs =>
    obtain ⟨limit, rfl⟩ : ∃ k, limit = k + 1 := ⟨limit - 1, by simp at hlimit; omega⟩
    obtain ⟨hbare, hdot⟩ := bare_tail h gs
    have hstep := readRun_cons g limit true hbare hdot
    rw [readRun_tail h (by simpa using hlimit)] at hstep
    rw [toList_joinGroups_cons]
    simpa using hstep

theorem takeWhile_zero (gs : List UInt16) :
    gs = List.replicate (gs.takeWhile (· = 0)).length 0 ++
      gs.drop (gs.takeWhile (· = 0)).length := by
  induction gs with
  | nil => rfl
  | cons g gs ih =>
    by_cases hg : g = 0
    · subst hg
      simpa [List.replicate_succ] using ih
    · simp [hg]

theorem longestZeros_spec (gs : List UInt16) :
    gs = gs.take (longestZeros gs).1 ++ List.replicate (longestZeros gs).2 0 ++
      gs.drop ((longestZeros gs).1 + (longestZeros gs).2) := by
  induction gs with
  | nil => rfl
  | cons g gs ih =>
    simp only [longestZeros]
    split
    · simpa only [List.take_zero, List.nil_append, Nat.zero_add] using takeWhile_zero (g :: gs)
    · have hshift : (longestZeros gs).1 + 1 + (longestZeros gs).2 =
          (longestZeros gs).1 + (longestZeros gs).2 + 1 := Nat.add_right_comm ..
      simpa only [hshift, List.take_succ_cons, List.drop_succ_cons, List.cons_append,
        List.cons.injEq, true_and] using ih

theorem ofGroups?_of_eq {ip : Ipv6} (h : gs = ip.groups) : ofGroups? gs = some ip := by
  subst h
  exact dif_pos ip.length_groups

theorem read_joinGroups {ip : Ipv6} (h : Ends rest) :
    read ((joinGroups ip.groups).toList ++ rest) = some (ip, rest) := by
  have hfront := readRun_joinGroups ip.groups h 8 (Nat.le_of_eq ip.length_groups)
  simp only [read, hfront, ip.length_groups, if_true, ofGroups?_of_eq rfl, Option.map_some]

theorem ends_colons (cs : List Char) : Ends (':' :: ':' :: cs) := by
  have hcolon (cs : List Char) : Bare Hex.value? (':' :: cs) := bare_cons_iff.mpr (by decide)
  refine ⟨hcolon _, by simp, ?_⟩
  rintro _ ⟨⟩
  exact hcolon cs

theorem read_mark {ip : Ipv6} (front : List UInt16) {back : Run} (zeros : Nat)
    (hback : readRun (7 - front.length) true cs = back) (hzeros : 1 ≤ zeros)
    (h : ip.groups = front ++ List.replicate zeros 0 ++ back.groups) :
    read ((joinGroups front).toList ++ ':' :: ':' :: cs) = some (ip, back.rest) := by
  have hlength := congrArg List.length h
  simp only [ip.length_groups, List.length_append, List.length_replicate] at hlength
  have hfront := readRun_joinGroups front (ends_colons cs) 8 (by omega)
  have hne : front.length ≠ 8 := by omega
  have hgap : 8 - front.length - back.groups.length = zeros := by omega
  have hip : ofGroups? (front ++ List.replicate zeros 0 ++ back.groups) = some ip :=
    ofGroups?_of_eq h.symm
  simp only [read, hfront, if_neg hne, Bool.false_eq_true, if_false, skip_self, hback, hgap, hip,
    Option.bind_eq_bind, Option.bind_some, Option.pure_def]

theorem readRun_mapped (hi lo : UInt16) (h : Ends rest) :
    readRun 7 true ('f' :: 'f' :: 'f' :: 'f' :: ':' ::
      ((Ipv4.ofGroups hi lo).text.toList ++ rest)) = ⟨[0xffff, hi, lo], true, rest⟩ := by
  have hdigits : digits 0xffff = ['f', 'f', 'f', 'f'] := by decide
  have hbare (cs : List Char) : Bare Hex.value? (':' :: cs) := bare_cons_iff.mpr (by decide)
  have hstep := readRun_cons 0xffff 6 true (hbare ((Ipv4.ofGroups hi lo).text.toList ++ rest))
    (by simp)
  have hshort := Ipv4.read_text (Ipv4.ofGroups hi lo) (bare_decimal_of_bare h.bare)
  have hlast : readRun 6 false (':' :: ((Ipv4.ofGroups hi lo).text.toList ++ rest)) =
      ⟨[hi, lo], true, rest⟩ := by
    simp [readRun, piece, after, skip_self, hshort, Ipv4.groups_ofGroups]
  rw [hlast, hdigits] at hstep
  exact hstep

theorem read_text (ip : Ipv6) (h : Ends rest) :
    read (ip.text.toList ++ rest) = some (ip, rest) := by
  rw [text]
  split
  · next hi lo hgroups =>
    have hback := readRun_mapped hi lo h
    have hread := read_mark [] 5 hback (by decide) hgroups
    simpa [joinGroups] using hread
  · next hplain =>
    dsimp only
    split
    · next hlong =>
      have hsplit := longestZeros_spec ip.groups
      have hlength := congrArg List.length hsplit
      simp only [ip.length_groups, List.length_append, List.length_replicate] at hlength
      have hback := readRun_joinGroups
        (ip.groups.drop ((longestZeros ip.groups).1 + (longestZeros ip.groups).2)) h
        (7 - (ip.groups.take (longestZeros ip.groups).1).length) (by omega)
      have hread := read_mark _ _ hback (by omega) hsplit
      simpa using hread
    · exact read_joinGroups h

end Ipv6

namespace Endpoint

variable {rest : List Char}

theorem readPort_digits (port : UInt16) :
    readPort (':' :: Nat.toDigits 10 port.toNat) = some (port, []) := by
  have hread := number_toDigits (faithful_decimal none true) port.toNat_lt
    (by rintro _ ⟨⟩) (bare_nil Decimal.digit?)
  rw [List.append_nil] at hread
  simp [readPort, skip_self, decimal, hread]

theorem readScope_digits (scope : UInt32) (h : Bare Decimal.digit? rest) :
    readScope ('%' :: (Nat.toDigits 10 scope.toNat ++ rest)) = some (scope, rest) := by
  have hread := number_toDigits (faithful_decimal none true) scope.toNat_lt (by rintro _ ⟨⟩) h
  simp [readScope, skip_self, decimal, hread]

theorem readV4_text (ip : Ipv4) (port : UInt16) :
    readV4 (v4 ip port).text.toList = some (v4 ip port, []) := by
  have hcolon : Bare Decimal.digit? (':' :: Nat.toDigits 10 port.toNat) :=
    bare_cons_iff.mpr (by decide)
  have hip := Ipv4.read_text ip hcolon
  simp [readV4, text, hip, readPort_digits]

def mark (scope : UInt32) : List Char :=
  if scope = 0 then [] else '%' :: Nat.toDigits 10 scope.toNat

theorem toList_text_v6 (ip : Ipv6) (scope : UInt32) (port : UInt16) :
    (v6 ip scope port).text.toList = '[' :: (ip.text.toList ++
      (mark scope ++ (']' :: ':' :: Nat.toDigits 10 port.toNat))) := by
  by_cases h : scope = 0 <;> simp [text, mark, h]

theorem ends_mark (scope : UInt32) (rest : List Char) : Ipv6.Ends (mark scope ++ ']' :: rest) := by
  unfold mark
  split
  · exact ⟨bare_cons_iff.mpr (by decide), by simp, by simp⟩
  · exact ⟨bare_cons_iff.mpr (by decide), by simp, by simp⟩

theorem readScope_mark (scope : UInt32) :
    (readScope (mark scope ++ ']' :: rest)).getD (0, mark scope ++ ']' :: rest) =
      (scope, ']' :: rest) := by
  unfold mark
  split
  · next h => simp [h, readScope, skip]
  · rw [List.cons_append, readScope_digits scope (bare_cons_iff.mpr (by decide)), Option.getD_some]

theorem readV6_text (ip : Ipv6) (scope : UInt32) (port : UInt16) :
    readV6 (v6 ip scope port).text.toList = some (v6 ip scope port, []) := by
  have hip := ip.read_text (ends_mark scope (':' :: Nat.toDigits 10 port.toNat))
  rw [toList_text_v6]
  simp only [readV6, skip_self, hip, readScope_mark, readPort_digits, Option.bind_eq_bind,
    Option.bind_some, Option.pure_def]

theorem readV4_text_v6 (ip : Ipv6) (scope : UInt32) (port : UInt16) :
    readV4 (v6 ip scope port).text.toList = none := by
  have hip : Ipv4.read (v6 ip scope port).text.toList = none := by
    rw [toList_text_v6]
    exact Ipv4.read_of_bare (bare_cons_iff.mpr (by decide))
  rw [readV4, hip]
  rfl

theorem ofString?_text (e : Endpoint) : ofString? e.text = some e := by
  cases e with
  | v4 ip port => rw [ofString?, readV4_text, Option.orElse_some]
  | v6 ip scope port => rw [ofString?, readV4_text_v6, readV6_text, Option.orElse_none]

end Endpoint

end LeaseOverlay
