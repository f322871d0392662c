import Lineage.Proofs.Yaml.Members
import Lineage.Yaml.Document

/-!
# Reading a written text

The tokens of a written value are put together to its tree again. Nothing that is written has a
name, so no reference is left to be replaced, and the document is the tree.

## Main definitions

- `Value.node`: a value as a node of a document

## Main statements

- `Document.parse?_render`: reading a written mapping gives its tree
-/

namespace Lineage.Yaml

/-! ## Trees -/

/-- A single value as a node. -/
def Scalar.node {ρ : Type} (s : Scalar) : Node ρ :=
  .scalar none none s.style (String.ofList s.content)

mutual
/-- A value as a node. -/
def Value.node {ρ : Type} : Value → Node ρ
  | .scalar s => s.node
  | .list items => .sequence none (items.map Scalar.node)
  | .map members => .mapping none (memberNodes members)
/-- Members as pairs of nodes. -/
def memberNodes {ρ : Type} : List (String × Value) → List (Node ρ × Node ρ)
  | [] => []
  | (key, value) :: members => (.scalar none none .plain key, value.node) :: memberNodes members
end

/-! ## Nodes from tokens -/

namespace Node

variable {handles : Handles} {context : Context} {bound : Nat} {stops rest : List Token}

theorem value?_scalar (style : Style) (text : List Char) :
    value? handles context (bound + 1) (.scalar style text :: rest)
      = some (.scalar none none style (String.ofList text), rest) := by
  simp [value?, properties]

theorem value?_token (v : Scalar) :
    value? handles context (bound + 1) (v.token :: rest) = some (v.node, rest) :=
  value?_scalar v.style v.content

theorem valueOrMissing?_of_not_mem {t : Token} {tokens : List Token} (h : t ∉ stops) :
    valueOrMissing? handles context stops (bound + 1) (t :: tokens)
      = value? handles context bound (t :: tokens) := by
  simp [valueOrMissing?, comesNext, h]

/-- The items of a list end where no dash comes. -/
theorem looseItems?_eq (handles : Handles) {items : List Scalar} (hbound : items.length + 2 ≤ bound)
    (hrest : rest.head? ≠ some .entry) :
    looseItems? handles bound ((items.flatMap fun v => [.entry, v.token]) ++ rest)
      = some (items.map Scalar.node, rest) := by
  induction items generalizing bound with
  | nil =>
    obtain ⟨bound, rfl⟩ : ∃ b, bound = b + 1 := ⟨bound - 1, by omega⟩
    show looseItems? handles (bound + 1) rest = _
    cases rest with
    | nil => simp [looseItems?]
    | cons t rest =>
      have ht : t ≠ .entry := by simpa using hrest
      simp [looseItems?, ht]
  | cons v items ih =>
    rw [List.length_cons] at hbound
    obtain ⟨bound, rfl⟩ : ∃ b, bound = b + 3 := ⟨bound - 3, by omega⟩
    have hitems := @ih (bound + 2) (by omega)
    have hvalue (tokens : List Token) :
        valueOrMissing? handles .block [.entry, .key, .value, .blockEnd] (bound + 2)
          (v.token :: tokens) = some (v.node, tokens) := by
      rw [valueOrMissing?_of_not_mem (by simp [Scalar.token]), value?_token]
    simp [looseItems?, hvalue, hitems]

/-- A member of a mapping: its key is a scalar, and its value is what it is read as. -/
theorem blockMembers?_cons (key : String) {t : Token} {tokens tokens' rest : List Token}
    {value : Written} {members : List (Written × Written)} (ht : t ∉ [.key, .value, .blockEnd])
    (hvalue : value? handles .member bound (t :: tokens) = some (value, tokens'))
    (hmembers : blockMembers? handles (bound + 1) tokens' = some (members, rest))
    (hbound : 0 < bound) :
    blockMembers? handles (bound + 2) (.key :: .scalar .plain key.toList :: .value :: t :: tokens)
      = some ((.scalar none none .plain key, value) :: members, rest) := by
  obtain ⟨bound, rfl⟩ : ∃ b, bound = b + 1 := ⟨bound - 1, by omega⟩
  have hkey (more : List Token) :
      valueOrMissing? handles .member [.key, .value, .blockEnd] (bound + 2)
        (.scalar .plain key.toList :: more) = some (.scalar none none .plain key, more) := by
    rw [valueOrMissing?_of_not_mem (by simp), value?_scalar, String.ofList_toList]
  have hread : valueOrMissing? handles .member [.key, .value, .blockEnd] (bound + 2) (t :: tokens)
      = some (value, tokens') := by
    rw [valueOrMissing?_of_not_mem ht, hvalue]
  simp [blockMembers?, hkey, hread, hmembers]

theorem exists_cons_tokens (v : Value) :
    ∃ t tokens, v.tokens = t :: tokens ∧ t ∉ [Token.key, .value, .blockEnd] := by
  cases v with
  | scalar v => exact ⟨_, [], rfl, by simp [Scalar.token]⟩
  | list items =>
    cases items with
    | nil => exact ⟨_, _, rfl, by simp⟩
    | cons v vs => exact ⟨.entry, v.token :: vs.flatMap _, rfl, by simp⟩
  | map members =>
    cases members with
    | nil => exact ⟨_, _, rfl, by simp⟩
    | cons m members => exact ⟨_, _, rfl, by simp⟩

theorem value?_entry (tokens : List Token) :
    value? handles .member (bound + 1) (.entry :: tokens)
      = (looseItems? handles bound (.entry :: tokens)).map fun (items, rest) =>
          (.sequence none items, rest) := by
  simp only [value?, properties, if_true]
  cases looseItems? handles bound (.entry :: tokens) <;> rfl

theorem value?_blockStart (hcontext : context ≠ .flow) (tokens : List Token) :
    value? handles context (bound + 1) (.blockStart .mapping :: tokens)
      = (blockMembers? handles bound tokens).map fun (members, rest) =>
          (.mapping none members, rest) := by
  simp only [value?, properties, hcontext, if_false]
  cases blockMembers? handles bound tokens <;> rfl

theorem head?_memberTokens_ne_entry (members : List (String × Value)) (rest : List Token) :
    (memberTokens members ++ .blockEnd :: rest).head? ≠ some .entry := by
  cases members with
  | nil => simp [memberTokens]
  | cons m members => simp [memberTokens]

mutual
/-- The tokens of a value are put together to its node. -/
theorem value?_tokens (handles : Handles) {bound : Nat} {rest : List Token} :
    ∀ v : Value, v.tokens.length + 2 ≤ bound → rest.head? ≠ some .entry →
      value? handles .member bound (v.tokens ++ rest) = some (v.node, rest)
  | .scalar v, hbound, _ => by
    obtain ⟨bound, rfl⟩ : ∃ b, bound = b + 1 := ⟨bound - 1, by omega⟩
    exact value?_token v
  | .list [], hbound, _ => by
    obtain ⟨bound, rfl⟩ : ∃ b, bound = b + 2 := ⟨bound - 2, by omega⟩
    simp [Value.tokens, value?, properties, flowItems?, Value.node]
  | .list (v :: vs), hbound, hrest => by
    obtain ⟨bound, rfl⟩ : ∃ b, bound = b + 1 := ⟨bound - 1, by omega⟩
    have hlength : ((v :: vs).flatMap fun v => [Token.entry, v.token]).length
        = 2 * (v :: vs).length := by
      simp [List.length_flatMap]
      omega
    have hcount : (v :: vs).length + 2 ≤ bound := by
      rw [Value.tokens, hlength] at hbound
      simp only [List.length_cons] at hbound ⊢
      omega
    have hitems := looseItems?_eq handles hcount hrest
    rw [Value.tokens]
    rw [List.flatMap_cons] at hitems ⊢
    exact (value?_entry _).trans (congrArg _ hitems)
  | .map [], hbound, _ => by
    obtain ⟨bound, rfl⟩ : ∃ b, bound = b + 2 := ⟨bound - 2, by omega⟩
    simp [Value.tokens, value?, properties, flowMembers?, Value.node, memberNodes]
  | .map (m :: members), hbound, _ => by
    obtain ⟨bound, rfl⟩ : ∃ b, bound = b + 1 := ⟨bound - 1, by omega⟩
    have hcount : (memberTokens (m :: members)).length + 2 ≤ bound := by
      simp only [Value.tokens, List.length_append, List.length_cons] at hbound
      omega
    have hmembers := blockMembers?_tokens handles rest (m :: members) hcount
    rw [Value.tokens, List.cons_append, List.cons_append, List.append_assoc,
      value?_blockStart (by decide)]
    exact congrArg _ hmembers
/-- The tokens of members are put together to pairs of nodes. -/
theorem blockMembers?_tokens (handles : Handles) {bound : Nat} (rest : List Token) :
    ∀ members : List (String × Value), (memberTokens members).length + 2 ≤ bound →
      blockMembers? handles bound (memberTokens members ++ .blockEnd :: rest)
        = some (memberNodes members, rest)
  | [], hbound => by
    obtain ⟨bound, rfl⟩ : ∃ b, bound = b + 1 := ⟨bound - 1, by omega⟩
    simp [memberTokens, blockMembers?, memberNodes]
  | (key, value) :: members, hbound => by
    simp only [memberTokens, List.length_cons, List.length_append] at hbound
    obtain ⟨bound, rfl⟩ : ∃ b, bound = b + 2 := ⟨bound - 2, by omega⟩
    obtain ⟨t, tokens, htokens, ht⟩ := exists_cons_tokens value
    have hvalueCount : value.tokens.length + 2 ≤ bound := by omega
    have hmembersCount : (memberTokens members).length + 2 ≤ bound + 1 := by omega
    have hvalue := value?_tokens handles value hvalueCount
      (head?_memberTokens_ne_entry members rest)
    have hmembers := blockMembers?_tokens handles rest members hmembersCount
    rw [htokens, List.cons_append] at hvalue
    have hread := blockMembers?_cons key ht hvalue hmembers (by omega)
    simpa [memberTokens, htokens, memberNodes] using hread
end

end Node

/-! ## Documents -/

mutual
/-- Nothing in a written value has a name or refers to one. -/
theorem link?_node (names : Names) : ∀ v : Value, link? names v.node = some (v.node, [], names)
  | .scalar v => rfl
  | .list items => by
    have hitems : linkItems? names (items.map Scalar.node)
        = some (items.map Scalar.node, [], names) := by
      induction items with
      | nil => rfl
      | cons v items ih => simp [linkItems?, Scalar.node, link?, Names.giveAll, ih]
    simp [Value.node, link?, Names.giveAll, hitems]
  | .map members => by
    simp [Value.node, link?, Names.giveAll, linkMembers?_memberNodes names members]
theorem linkMembers?_memberNodes (names : Names) :
    ∀ members : List (String × Value),
      linkMembers? names (memberNodes members) = some (memberNodes members, [], names)
  | [] => rfl
  | (key, value) :: members => by
    simp [memberNodes, linkMembers?, link?, Names.giveAll, link?_node names value,
      linkMembers?_memberNodes names members]
end

/-- Reading a written mapping gives its tree. -/
theorem Document.parse?_render {members : List (String × Value)} (hne : members ≠ [])
    (hkeys : membersHaveKeys members = true) :
    Document.parse? (render members) = some ⟨some (.mapping none (memberNodes members)), []⟩ := by
  have htokens := Token.scan?_render hne hkeys
  have hroot : Node.ofTokens? ((Value.map members).tokens ++ [.textEnd])
      = some (some (Value.map members).node) := by
    cases members with
    | nil => exact absurd rfl hne
    | cons m members =>
      have htokens : (Value.map (m :: members)).tokens ++ [.textEnd]
          = .blockStart .mapping :: (memberTokens (m :: members) ++ [.blockEnd, .textEnd]) := by
        simp [Value.tokens]
      have hdocument : Node.document?
          (.blockStart .mapping :: (memberTokens (m :: members) ++ [.blockEnd, .textEnd]))
            = some ((Value.map (m :: members)).node, [.textEnd]) := by
        -- the parser goes four times as far as there are tokens, and once is enough
        have hbound (count : Nat) : 4 * (count + 1) + 4 = (4 * count + 7) + 1 := by omega
        have hcount : (memberTokens (m :: members)).length + 2
            ≤ 4 * (memberTokens (m :: members) ++ [Token.blockEnd, .textEnd]).length + 7 := by
          rw [List.length_append]
          omega
        have hread := Node.blockMembers?_tokens Node.standardHandles [.textEnd] (m :: members)
          hcount
        rw [Node.document?, List.length_cons, hbound]
        exact (Node.value?_blockStart (by decide) _).trans (congrArg _ hread)
        all_goals simp
      rw [htokens]
      simp [Node.ofTokens?, hdocument, Node.isLast]
  have hlink := link?_node [] (.map members)
  simp only [Document.parse?, htokens, hroot, hlink, Option.bind_eq_bind, Option.bind_some]
  rfl

end Lineage.Yaml
