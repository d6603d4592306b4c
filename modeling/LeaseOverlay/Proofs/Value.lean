import LeaseOverlay.Json.Value
import LeaseOverlay.Proofs.Token

namespace LeaseOverlay.Json.Value

open Token

mutual

theorem isChain_tokens : (v : Value) → v.tokens.IsChain Apart
  | .null => .singleton _
  | .bool _ => .singleton _
  | .number _ => .singleton _
  | .text _ => .singleton _
  | .array vs =>
    isChain_cons (by simp) (isChain_around (by simp) (isChain_itemTokens vs) .nil)
  | .object fs =>
    isChain_cons (by simp) (isChain_around (by simp) (isChain_fieldTokens fs) .nil)

theorem isChain_itemTokens : (vs : List Value) → (itemTokens vs).IsChain Apart
  | [] => .nil
  | [v] => isChain_tokens v
  | v :: w :: vs => isChain_around (by simp) (isChain_tokens v) (isChain_itemTokens (w :: vs))

theorem isChain_fieldTokens : (fs : List (Text × Value)) → (fieldTokens fs).IsChain Apart
  | [] => .nil
  | [(_, v)] => isChain_cons (by simp) (isChain_cons (by simp) (isChain_tokens v))
  | (_, v) :: f :: fs =>
    isChain_cons (by simp) (isChain_cons (by simp)
      (isChain_around (by simp) (isChain_tokens v) (isChain_fieldTokens (f :: fs))))

end

def Canonical (v : Value) : Prop := ∀ t ∈ v.tokens, t.Canonical

theorem ofTokensFrom_cons (e : Expect) (stack : List Open) (t : Token) (ts : List Token) :
    ofTokensFrom e stack (t :: ts) =
      (step e stack t).bind fun s => ofTokensFrom s.1 s.2 ts := by
  rw [ofTokensFrom]
  cases step e stack t <;> rfl

theorem ofTokensFrom_item (v : Value) (stack : List Open) (ts : List Token) :
    ofTokensFrom .item (.array [] :: stack) (v.tokens ++ ts) =
      ofTokensFrom .value (.array [] :: stack) (v.tokens ++ ts) := by
  cases v <;> rfl

mutual

theorem ofTokensFrom_tokens : (v : Value) → (stack : List Open) → (ts : List Token) →
    ofTokensFrom .value stack (v.tokens ++ ts) = ofTokensFrom (.rest v) stack ts
  | .null, _, _ => rfl
  | .bool _, _, _ => rfl
  | .number _, _, _ => rfl
  | .text _, _, _ => rfl
  | .array [], _, _ => rfl
  | .object [], _, _ => rfl
  | .array (v :: vs), stack, ts => by
    have hitems := ofTokensFrom_items (v :: vs) (by simp) [] stack ts
    have hfirst : ofTokensFrom .item (.array [] :: stack)
          (itemTokens (v :: vs) ++ .closeArray :: ts) =
        ofTokensFrom .value (.array [] :: stack) (itemTokens (v :: vs) ++ .closeArray :: ts) := by
      cases vs with
      | nil => exact ofTokensFrom_item v stack _
      | cons w vs =>
        simp only [itemTokens, List.append_assoc]
        exact ofTokensFrom_item v stack _
    rw [tokens, List.cons_append, List.append_assoc, ofTokensFrom_cons]
    exact hfirst.trans hitems
  | .object (f :: fs), stack, ts => by
    have hfields := ofTokensFrom_fields (f :: fs) (by simp) [] stack ts
    have hfirst : ofTokensFrom .firstKey (.object [] :: stack)
          (fieldTokens (f :: fs) ++ .closeObject :: ts) =
        ofTokensFrom .key (.object [] :: stack) (fieldTokens (f :: fs) ++ .closeObject :: ts) := by
      cases fs <;> rfl
    rw [tokens, List.cons_append, List.append_assoc, ofTokensFrom_cons]
    exact hfirst.trans hfields

theorem ofTokensFrom_items : (vs : List Value) → vs ≠ [] → (done : List Value) →
    (stack : List Open) → (ts : List Token) →
    ofTokensFrom .value (.array done :: stack) (itemTokens vs ++ .closeArray :: ts) =
      ofTokensFrom (.rest (.array (done.reverse ++ vs))) stack ts
  | [], h, _, _, _ => absurd rfl h
  | [v], _, done, stack, ts => by
    rw [itemTokens, ofTokensFrom_tokens v, ofTokensFrom_cons]
    simp [step, next]
  | v :: w :: vs, _, done, stack, ts => by
    have hrest := ofTokensFrom_items (w :: vs) (by simp) (v :: done) stack ts
    rw [itemTokens, List.append_assoc, ofTokensFrom_tokens v, List.cons_append, ofTokensFrom_cons]
    simpa [step, next] using hrest

theorem ofTokensFrom_fields : (fs : List (Text × Value)) → fs ≠ [] →
    (done : List (Text × Value)) → (stack : List Open) → (ts : List Token) →
    ofTokensFrom .key (.object done :: stack) (fieldTokens fs ++ .closeObject :: ts) =
      ofTokensFrom (.rest (.object (done.reverse ++ fs))) stack ts
  | [], h, _, _, _ => absurd rfl h
  | [(k, v)], _, done, stack, ts => by
    have hv := ofTokensFrom_tokens v (.field k done :: stack) (.closeObject :: ts)
    rw [ofTokensFrom_cons] at hv
    simpa [fieldTokens, ofTokensFrom_cons, step, next] using hv
  | (k, v) :: f :: fs, _, done, stack, ts => by
    have hv := ofTokensFrom_tokens v (.field k done :: stack)
      (.comma :: (fieldTokens (f :: fs) ++ .closeObject :: ts))
    have hrest := ofTokensFrom_fields (f :: fs) (by simp) ((k, v) :: done) stack ts
    rw [ofTokensFrom_cons] at hv
    simpa [fieldTokens, ofTokensFrom_cons, step, next, hrest] using hv

end

theorem ofTokens?_tokens (v : Value) : ofTokens? v.tokens = some v := by
  have h := ofTokensFrom_tokens v [] []
  rw [List.append_nil] at h
  exact h

theorem parse?_render {v : Value} (h : v.Canonical) : parse? v.render = some v := by
  rw [parse?, render, Token.ofBytes?_render h (isChain_tokens v), Option.bind_some,
    ofTokens?_tokens]

theorem mem_itemTokens {t : Token} : {vs : List Value} → t ∈ itemTokens vs →
    t = .comma ∨ ∃ v ∈ vs, t ∈ v.tokens
  | [v], h => .inr ⟨v, by simp, h⟩
  | v :: w :: vs, h => by
    rw [itemTokens, List.mem_append, List.mem_cons] at h
    rcases h with h | h | h
    · exact .inr ⟨v, by simp, h⟩
    · exact .inl h
    · refine (mem_itemTokens h).imp_right ?_
      rintro ⟨u, hu, ht⟩
      exact ⟨u, List.mem_cons_of_mem v hu, ht⟩

theorem mem_fieldTokens {t : Token} : {fs : List (Text × Value)} → t ∈ fieldTokens fs →
    t = .comma ∨ t = .colon ∨ ∃ f ∈ fs, t = .text f.1 ∨ t ∈ f.2.tokens
  | [(k, v)], h => by
    simp only [fieldTokens, List.mem_cons] at h
    rcases h with h | h | h
    · exact .inr (.inr ⟨(k, v), by simp, .inl h⟩)
    · exact .inr (.inl h)
    · exact .inr (.inr ⟨(k, v), by simp, .inr h⟩)
  | (k, v) :: f :: fs, h => by
    simp only [fieldTokens, List.mem_cons, List.mem_append] at h
    rcases h with h | h | h | h | h
    · exact .inr (.inr ⟨(k, v), by simp, .inl h⟩)
    · exact .inr (.inl h)
    · exact .inr (.inr ⟨(k, v), by simp, .inr h⟩)
    · exact .inl h
    · refine (mem_fieldTokens h).imp_right (Or.imp_right ?_)
      rintro ⟨g, hg, ht⟩
      exact ⟨g, List.mem_cons_of_mem _ hg, ht⟩

@[simp] theorem canonical_null : Canonical null := by
  intro t ht
  cases List.mem_singleton.mp ht
  trivial

@[simp] theorem canonical_ofString (s : String) : (ofString s).Canonical := by
  intro t ht
  cases List.mem_singleton.mp ht
  rfl

@[simp] theorem canonical_ofNat (n : Nat) : (ofNat n).Canonical := by
  intro t ht
  cases List.mem_singleton.mp ht
  rfl

@[simp] theorem canonical_ofInt (i : Int) : (ofInt i).Canonical := by
  intro t ht
  cases List.mem_singleton.mp ht
  rfl

theorem canonical_array {vs : List Value} (h : ∀ v ∈ vs, v.Canonical) : (array vs).Canonical := by
  intro t ht
  simp only [tokens, List.mem_cons, List.mem_append, List.not_mem_nil, or_false] at ht
  rcases ht with rfl | ht | rfl
  · trivial
  · rcases mem_itemTokens ht with rfl | ⟨v, hv, ht⟩
    · trivial
    · exact h v hv t ht
  · trivial

theorem canonical_ofFields {fs : List (String × Value)} (h : ∀ f ∈ fs, f.2.Canonical) :
    (ofFields fs).Canonical := by
  intro t ht
  simp only [ofFields, tokens, List.mem_cons, List.mem_append, List.not_mem_nil, or_false] at ht
  rcases ht with rfl | ht | rfl
  · trivial
  · rcases mem_fieldTokens ht with rfl | rfl | ⟨g, hg, ht⟩
    · trivial
    · trivial
    · obtain ⟨f, hf, rfl⟩ := List.mem_map.mp hg
      rcases ht with rfl | ht
      · rfl
      · exact h f hf t ht
  · trivial

theorem canonical_map {α : Type} {write : α → Value} (h : ∀ a, (write a).Canonical) (as : List α) :
    (array (as.map write)).Canonical := by
  refine canonical_array fun v hv => ?_
  obtain ⟨a, _, rfl⟩ := List.mem_map.mp hv
  exact h a

end LeaseOverlay.Json.Value
