import DeltaReplica.Json.Tree
import DeltaReplica.Proofs.Scanning

/-!
# Parsing printed trees

The text of a tree is read as that tree (`Tree.ofChars?_chars`), provided its numbers and
strings are spelled as the grammar has them.  The brackets that are open inside the tree
are on top of those that were open before it, so what is shown is that reading the tokens
of a tree has the effect of a complete value, whatever stands on the stack.
-/

namespace DeltaReplica.Json

namespace Tree

/-- The tokens of a tree do not start with the end of an array. -/
theorem exists_tokens_eq_cons (t : Tree) : ∃ u us, t.tokens = u :: us ∧ u ≠ .closeArray := by
  cases t with
  | null | bool | number | string => exact ⟨_, [], rfl, Token.noConfusion⟩
  | array ts => cases ts <;> exact ⟨.openArray, _, rfl, Token.noConfusion⟩
  | object ms => cases ms <;> exact ⟨.openObject, _, rfl, Token.noConfusion⟩

end Tree

/-! ## The machine -/

namespace Awaiting

variable {stack : List Frame} {s : Awaiting}

/-- The first item of an array is read like any other value. -/
theorem reads_first {t : Tree} (h : Reads step (.value (.array [] :: stack)) t.tokens s) :
    Reads step (.item stack) t.tokens s := by
  obtain ⟨u, us, htokens, hu⟩ := t.exists_tokens_eq_cons
  have hstep : step (.item stack) u = step (.value (.array [] :: stack)) u := by
    cases u with
    | closeArray => exact absurd rfl hu
    | _ => rfl
  rw [htokens, Reads, List.foldlM_cons] at h ⊢
  rw [hstep]
  exact h

/-- A tree is read as a complete value. -/
def ReadsTree (t : Tree) : Prop :=
  ∀ stack s, after t stack = some s → Reads step (.value stack) t.tokens s

theorem reads_items {ts : List Tree} (hts : ∀ t ∈ ts, ReadsTree t) (acc : List Tree) :
    Reads step (.separator (.array acc :: stack)) (Tree.itemTokens ts)
      (.separator (.array (ts.reverse ++ acc) :: stack)) := by
  induction ts generalizing acc with
  | nil => exact .nil _
  | cons t ts ih =>
      obtain ⟨ht, hts⟩ := List.forall_mem_cons.mp hts
      rw [List.reverse_cons, List.append_assoc]
      exact .cons rfl ((ht _ _ rfl).append (ih hts (t :: acc)))

theorem reads_members {ms : List (Literal × Tree)} (hms : ∀ m ∈ ms, ReadsTree m.2)
    (acc : List (Literal × Tree)) :
    Reads step (.separator (.object acc :: stack)) (Tree.memberTokens ms)
      (.separator (.object (ms.reverse ++ acc) :: stack)) := by
  induction ms generalizing acc with
  | nil => exact .nil _
  | cons m ms ih =>
      obtain ⟨hm, hms⟩ := List.forall_mem_cons.mp hms
      rw [List.reverse_cons, List.append_assoc]
      exact .cons rfl (.cons rfl (.cons rfl ((hm _ _ rfl).append (ih hms (m :: acc)))))

theorem readsTree_array {ts : List Tree} (hts : ∀ t ∈ ts, ReadsTree t) :
    ReadsTree (.array ts) := by
  intro stack s hs
  cases ts with
  | nil => exact .cons rfl (.cons hs (.nil s))
  | cons t ts =>
      obtain ⟨ht, hts⟩ := List.forall_mem_cons.mp hts
      have hfirst : Reads step (.item stack) t.tokens (.separator (.array [t] :: stack)) :=
        reads_first (ht _ _ rfl)
      have hclose : step (.separator (.array (ts.reverse ++ [t]) :: stack)) .closeArray =
          some s := by
        simpa [step] using hs
      exact .append (.cons rfl (hfirst.append (reads_items hts [t]))) (.cons hclose (.nil s))

theorem readsTree_object {ms : List (Literal × Tree)} (hms : ∀ m ∈ ms, ReadsTree m.2) :
    ReadsTree (.object ms) := by
  intro stack s hs
  cases ms with
  | nil => exact .cons rfl (.cons hs (.nil s))
  | cons m ms =>
      obtain ⟨hm, hms⟩ := List.forall_mem_cons.mp hms
      have hfirst : Reads step (.firstName stack) (.string m.1 :: .colon :: m.2.tokens)
          (.separator (.object [m] :: stack)) :=
        .cons rfl (.cons rfl (hm _ _ rfl))
      have hclose : step (.separator (.object (ms.reverse ++ [m]) :: stack)) .closeObject =
          some s := by
        simpa [step] using hs
      exact .append (.cons rfl (hfirst.append (reads_members hms [m]))) (.cons hclose (.nil s))

theorem readsTree (t : Tree) : ReadsTree t := by
  induction t using Tree.induction with
  | null | bool | number | string => exact fun _ _ hs => .cons hs (.nil _)
  | array ts ih => exact readsTree_array ih
  | object ms ih => exact readsTree_object ih

end Awaiting

namespace Tree

/-- The tokens of a tree are those of no other tree. -/
@[simp]
theorem ofTokens?_tokens (t : Tree) : ofTokens? t.tokens = some t := by
  have hreads : t.tokens.foldlM Awaiting.step (.value []) = some (.nothing t) :=
    Awaiting.readsTree t [] (.nothing t) rfl
  rw [ofTokens?, hreads]

/-! ## Numbers apart -/

/-- Tokens that may stand after a value. -/
def Follows (us : List Token) : Prop :=
  NumbersApart us ∧ ∀ u ∈ us.head?, u.isNumber = false

theorem Follows.cons {u : Token} (hu : u.isNumber = false) {us : List Token}
    (hus : NumbersApart us) : Follows (u :: us) := by
  refine ⟨List.isChain_cons.mpr ⟨fun v _ hnumber => ?_, hus⟩, ?_⟩
  · rw [hu] at hnumber
    cases hnumber
  · rintro v ⟨⟩
    exact hu

theorem Follows.numbersApart_cons {us : List Token} (h : Follows us) (u : Token) :
    NumbersApart (u :: us) :=
  List.isChain_cons.mpr ⟨fun v hv _ => h.2 v hv, h.1⟩

/-- The numbers of a tree are apart from each other and from what follows the tree. -/
def KeepsApart (t : Tree) : Prop := ∀ us, Follows us → NumbersApart (t.tokens ++ us)

theorem follows_itemTokens {ts : List Tree} (hts : ∀ t ∈ ts, t.KeepsApart) {us : List Token}
    (hus : Follows us) : Follows (itemTokens ts ++ us) := by
  induction ts with
  | nil => exact hus
  | cons t ts ih =>
      obtain ⟨ht, hts⟩ := List.forall_mem_cons.mp hts
      simp only [itemTokens, List.cons_append, List.append_assoc]
      exact .cons rfl (ht _ (ih hts))

theorem follows_memberTokens {ms : List (Literal × Tree)} (hms : ∀ m ∈ ms, m.2.KeepsApart)
    {us : List Token} (hus : Follows us) : Follows (memberTokens ms ++ us) := by
  induction ms with
  | nil => exact hus
  | cons m ms ih =>
      obtain ⟨hm, hms⟩ := List.forall_mem_cons.mp hms
      simp only [memberTokens, List.cons_append, List.append_assoc]
      exact .cons rfl (Follows.cons rfl (Follows.cons rfl (hm _ (ih hms))).1).1

theorem keepsApart_array {ts : List Tree} (hts : ∀ t ∈ ts, t.KeepsApart) :
    (array ts).KeepsApart := by
  intro us hus
  have hclose : Follows (.closeArray :: us) := .cons rfl hus.1
  cases ts with
  | nil => exact (Follows.cons (u := .openArray) rfl hclose.1).1
  | cons t ts =>
      obtain ⟨ht, hts⟩ := List.forall_mem_cons.mp hts
      simp only [tokens, List.cons_append, List.append_assoc, List.nil_append]
      exact (Follows.cons rfl (ht _ (follows_itemTokens hts hclose))).1

theorem keepsApart_object {ms : List (Literal × Tree)} (hms : ∀ m ∈ ms, m.2.KeepsApart) :
    (object ms).KeepsApart := by
  intro us hus
  have hclose : Follows (.closeObject :: us) := .cons rfl hus.1
  cases ms with
  | nil => exact (Follows.cons (u := .openObject) rfl hclose.1).1
  | cons m ms =>
      obtain ⟨hm, hms⟩ := List.forall_mem_cons.mp hms
      simp only [tokens, List.cons_append, List.append_assoc, List.nil_append]
      have hvalue : NumbersApart (m.2.tokens ++ (memberTokens ms ++ .closeObject :: us)) :=
        hm _ (follows_memberTokens hms hclose)
      exact (Follows.cons rfl (Follows.cons rfl (Follows.cons rfl hvalue).1).1).1

theorem keepsApart (t : Tree) : t.KeepsApart := by
  induction t using Tree.induction with
  | null | bool | number | string => exact fun us hus => hus.numbersApart_cons _
  | array ts ih => exact keepsApart_array ih
  | object ms ih => exact keepsApart_object ih

theorem numbersApart_tokens (t : Tree) : NumbersApart t.tokens := by
  have h := t.keepsApart [] ⟨List.isChain_nil, fun _ hu => nomatch hu⟩
  rwa [List.append_nil] at h

/-! ## Spelling -/

/-- All numbers and strings of a tree are spelled as the grammar has them. -/
def Spelled (t : Tree) : Prop := ∀ u ∈ t.tokens, u.Spelled

/-- A tree whose numbers and strings are spelled as the grammar has them is read from its text. -/
theorem ofChars?_chars {t : Tree} (h : t.Spelled) : ofChars? t.chars = some t := by
  rw [ofChars?, chars, tokens?_written h t.numbersApart_tokens]
  exact t.ofTokens?_tokens

theorem spelled_array {ts : List Tree} (h : ∀ t ∈ ts, t.Spelled) : (array ts).Spelled := by
  have hitems : ∀ ts : List Tree, (∀ t ∈ ts, t.Spelled) → ∀ u ∈ itemTokens ts, u.Spelled := by
    intro ts h
    induction ts with
    | nil => exact fun _ hu => nomatch hu
    | cons t ts ih =>
        obtain ⟨ht, hts⟩ := List.forall_mem_cons.mp h
        exact List.forall_mem_cons.mpr ⟨trivial, List.forall_mem_append.mpr ⟨ht, ih hts⟩⟩
  cases ts with
  | nil => simp [Spelled, tokens, Token.Spelled]
  | cons t ts =>
      obtain ⟨ht, hts⟩ := List.forall_mem_cons.mp h
      have hclose : ∀ u ∈ [Token.closeArray], u.Spelled := by simp [Token.Spelled]
      exact List.forall_mem_append.mpr ⟨List.forall_mem_cons.mpr
        ⟨trivial, List.forall_mem_append.mpr ⟨ht, hitems ts hts⟩⟩, hclose⟩

theorem spelled_object {ms : List (Literal × Tree)} (h : ∀ m ∈ ms, m.1.Spelled ∧ m.2.Spelled) :
    (object ms).Spelled := by
  have hmember : ∀ m : Literal × Tree, m.1.Spelled → m.2.Spelled →
      ∀ u ∈ .string m.1 :: .colon :: m.2.tokens, u.Spelled := fun m hname hvalue =>
    List.forall_mem_cons.mpr ⟨hname, List.forall_mem_cons.mpr ⟨trivial, hvalue⟩⟩
  have hmembers : ∀ ms : List (Literal × Tree), (∀ m ∈ ms, m.1.Spelled ∧ m.2.Spelled) →
      ∀ u ∈ memberTokens ms, u.Spelled := by
    intro ms h
    induction ms with
    | nil => exact fun _ hu => nomatch hu
    | cons m ms ih =>
        obtain ⟨⟨hname, hvalue⟩, hms⟩ := List.forall_mem_cons.mp h
        exact List.forall_mem_cons.mpr
          ⟨trivial, List.forall_mem_append.mpr ⟨hmember m hname hvalue, ih hms⟩⟩
  cases ms with
  | nil => simp [Spelled, tokens, Token.Spelled]
  | cons m ms =>
      obtain ⟨⟨hname, hvalue⟩, hms⟩ := List.forall_mem_cons.mp h
      have hclose : ∀ u ∈ [Token.closeObject], u.Spelled := by simp [Token.Spelled]
      exact List.forall_mem_append.mpr ⟨List.forall_mem_cons.mpr
        ⟨trivial, List.forall_mem_append.mpr ⟨hmember m hname hvalue, hmembers ms hms⟩⟩, hclose⟩

end Tree

end DeltaReplica.Json
