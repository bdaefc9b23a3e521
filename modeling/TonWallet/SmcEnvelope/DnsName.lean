/-
Domain names (`DnsInterface::encode_name`, `decode_name`): a name is written as its components from the right to the
left, each with a NUL byte behind it, so that a resolver which knows the last components of a name knows a prefix of
what is written. A prefix that stops at the end of a component is read back as the last components of the name.
-/
import TonWallet.Lib.Terminated

namespace TonWallet.SmcEnvelope

open Lib

/-! ## Writing and reading names -/

/-- The dot between the components of a name. -/
def dot : UInt8 := 46

/-- The loop of `encode_name`, with so many turns at most. -/
def encodeLoop : Nat → List UInt8 → List UInt8
  | 0, _ => []
  | n + 1, name =>
    if name.isEmpty then []
    else match rfind dot name with
      | none => name ++ [0]
      | some pos => name.drop (pos + 1) ++ 0 :: encodeLoop n (name.take pos)

/-- `encode_name`. Each turn takes a byte at least. -/
def encodeName (name : List UInt8) : List UInt8 := encodeLoop name.length name

/-- The loop of `decode_name`, with so many turns at most. -/
def decodeLoop : Nat → List UInt8 → List UInt8 → List UInt8
  | 0, _, res => res
  | n + 1, name, res =>
    if name.isEmpty then res
    else
      let res := if res.isEmpty then res else res ++ [dot]
      match rfind 0 name with
        | none => res ++ name
        | some pos => decodeLoop n (name.take pos) (res ++ name.drop (pos + 1))

/-- `decode_name`. -/
def decodeName (name : List UInt8) : List UInt8 :=
  let name := if name.getLast? = some 0 then name.dropLast else name
  decodeLoop name.length name []

/-! ## The loops on components -/

theorem encodeLoop_intercalate {parts : List (List UInt8)} (hdot : ∀ part ∈ parts, dot ∉ part)
    (hne : ∀ part ∈ parts, part ≠ []) {n : Nat} (hn : parts.length ≤ n) :
    encodeLoop n ([dot].intercalate parts) = terminated 0 parts.reverse := by
  -- the loop takes the components from the right
  induction parts using List.reverseRecOn generalizing n with
  | nil => cases n <;> rfl
  | append_singleton parts part ih =>
    obtain ⟨n, rfl⟩ : ∃ m, n = m + 1 := ⟨n - 1, by simp at hn; omega⟩
    have hn' : parts.length ≤ n := by simpa using hn
    have hpart : dot ∉ part := hdot part (by simp)
    have hnonempty : ([dot].intercalate (parts ++ [part])).isEmpty = false := by
      rw [List.isEmpty_eq_false_iff]
      exact intercalate_ne_nil (by simp) hne
    rw [encodeLoop, hnonempty, if_neg Bool.false_ne_true, List.reverse_append, List.reverse_singleton,
      List.singleton_append, terminated_cons]
    by_cases hparts : parts = []
    · subst hparts
      rw [List.nil_append, List.intercalate_singleton, rfind_eq_none hpart]
      rfl
    · rw [intercalate_append hparts (List.cons_ne_nil part []), List.intercalate_singleton, rfind_append _ _ _ hpart]
      have hrest := ih (fun p hp => hdot p (List.mem_append_left _ hp)) (fun p hp => hne p (List.mem_append_left _ hp)) hn'
      simp only [List.take_left']
      rw [hrest]
      simp

/-- What is read so far, with a dot for what comes next. -/
theorem intercalate_append_last (res part : List UInt8) (parts : List (List UInt8)) :
    [dot].intercalate (((if res.isEmpty then res else res ++ [dot]) ++ part) :: parts) =
      [dot].intercalate (if res.isEmpty then part :: parts else res :: part :: parts) := by
  by_cases h : res.isEmpty = true
  · rw [List.isEmpty_iff.1 h]
    rfl
  · rw [if_neg h, if_neg h]
    by_cases hparts : parts = []
    · subst hparts
      rw [List.intercalate_cons_of_ne_nil (List.cons_ne_nil part []), List.intercalate_singleton,
        List.intercalate_singleton]
    · rw [List.intercalate_cons_of_ne_nil hparts, List.intercalate_cons_of_ne_nil (List.cons_ne_nil part parts),
        List.intercalate_cons_of_ne_nil hparts]
      simp

theorem decodeLoop_intercalate {parts : List (List UInt8)} (hnul : ∀ part ∈ parts, 0 ∉ part)
    (hne : ∀ part ∈ parts, part ≠ []) {n : Nat} (hn : parts.length ≤ n) (res : List UInt8) :
    decodeLoop n ([0].intercalate parts) res =
      [dot].intercalate (if res.isEmpty then parts.reverse else res :: parts.reverse) := by
  induction parts using List.reverseRecOn generalizing n res with
  | nil =>
    have hjoin : [dot].intercalate (if res.isEmpty then [] else [res]) = res := by
      cases res <;> simp
    rw [List.reverse_nil, hjoin]
    cases n <;> rfl
  | append_singleton parts part ih =>
    obtain ⟨n, rfl⟩ : ∃ m, n = m + 1 := ⟨n - 1, by simp at hn; omega⟩
    have hn' : parts.length ≤ n := by simpa using hn
    have hpart : 0 ∉ part := hnul part (by simp)
    have hlast := hne part (by simp)
    have hnonempty : ([0].intercalate (parts ++ [part])).isEmpty = false := by
      rw [List.isEmpty_eq_false_iff]
      exact intercalate_ne_nil (by simp) hne
    rw [decodeLoop, hnonempty, if_neg Bool.false_ne_true, List.reverse_append, List.reverse_singleton,
      List.singleton_append, ← intercalate_append_last]
    by_cases hparts : parts = []
    · subst hparts
      rw [List.nil_append, List.intercalate_singleton, rfind_eq_none hpart, List.reverse_nil, List.intercalate_singleton]
    · rw [intercalate_append hparts (List.cons_ne_nil part []), List.intercalate_singleton, rfind_append _ _ _ hpart]
      have hrest := ih (fun p hp => hnul p (List.mem_append_left _ hp)) (fun p hp => hne p (List.mem_append_left _ hp)) hn'
        ((if res.isEmpty then res else res ++ [dot]) ++ part)
      have hsome : ((if res.isEmpty then res else res ++ [dot]) ++ part).isEmpty = false := by
        rw [List.isEmpty_eq_false_iff]
        simp [hlast]
      rw [hsome, if_neg Bool.false_ne_true] at hrest
      simpa using hrest

/-- A terminated list of components is read from its end; the terminator of the last one may be missing. -/
theorem decodeName_terminated {parts : List (List UInt8)} {part : List UInt8} (hnul : ∀ p ∈ parts ++ [part], 0 ∉ p)
    (hne : ∀ p ∈ parts ++ [part], p ≠ []) :
    decodeName (terminated 0 parts ++ part) = [dot].intercalate (part :: parts.reverse) ∧
      decodeName (terminated 0 (parts ++ [part])) = [dot].intercalate (part :: parts.reverse) := by
  have hpart : 0 ∉ part := hnul part (by simp)
  have hlast : part ≠ [] := hne part (by simp)
  have hjoin : terminated 0 parts ++ part = [0].intercalate (parts ++ [part]) := by
    by_cases hparts : parts = []
    · subst hparts
      simp
    · rw [intercalate_append hparts (by simp), terminated_eq_intercalate hparts]
      simp
  have hend : (terminated 0 parts ++ part).getLast? ≠ some 0 := by
    rw [List.getLast?_append_of_ne_nil _ hlast, List.getLast?_eq_some_getLast hlast]
    intro h
    exact hpart (Option.some.inj h ▸ List.getLast_mem hlast)
  have hloop : decodeLoop (terminated 0 parts ++ part).length (terminated 0 parts ++ part) [] =
      [dot].intercalate (part :: parts.reverse) := by
    rw [hjoin, decodeLoop_intercalate hnul hne (length_le_intercalate 0 hne) []]
    simp
  constructor
  · rw [decodeName, if_neg hend]
    exact hloop
  · have hterm : terminated 0 (parts ++ [part]) = terminated 0 parts ++ part ++ [0] := by simp
    rw [decodeName, hterm, if_pos (by simp), List.dropLast_concat]
    exact hloop

/-! ## Names -/

/-- A domain name: without a NUL byte and without an empty component. -/
@[ext] structure DnsName where
  bytes : List UInt8
  noNul : 0 ∉ bytes
  noEmpty : [] ∉ bytes.splitOn dot
  deriving DecidableEq

namespace DnsName

/-- The components of a name, from the left. -/
def components (n : DnsName) : List (List UInt8) := n.bytes.splitOn dot

theorem components_ne_nil (n : DnsName) : n.components ≠ [] := List.splitOn_ne_nil dot n.bytes

theorem bytes_eq (n : DnsName) : n.bytes = [dot].intercalate n.components := (List.intercalate_splitOn dot).symm

theorem component_ne_nil (n : DnsName) {part : List UInt8} (h : part ∈ n.components) : part ≠ [] := by
  rintro rfl
  exact n.noEmpty h

theorem dot_not_mem (n : DnsName) {part : List UInt8} (h : part ∈ n.components) : dot ∉ part :=
  not_mem_of_mem_splitOn h

theorem nul_not_mem (n : DnsName) {part : List UInt8} (h : part ∈ n.components) : 0 ∉ part :=
  fun hmem => n.noNul (mem_of_mem_splitOn h hmem)

theorem encodeName_bytes (n : DnsName) : encodeName n.bytes = terminated 0 n.components.reverse := by
  have hlen : n.components.length ≤ n.bytes.length := by
    rw [n.bytes_eq]
    exact length_le_intercalate dot fun _ => n.component_ne_nil
  have hloop := encodeLoop_intercalate (fun _ => n.dot_not_mem) (fun _ => n.component_ne_nil) hlen
  rwa [← n.bytes_eq] at hloop

/-- The last components of a name, with the dot before them, split its text. -/
theorem bytes_of_components {n : DnsName} {xs ys : List (List UInt8)} (h : n.components = xs ++ ys) (hxs : xs ≠ [])
    (hys : ys ≠ []) : n.bytes = [dot].intercalate xs ++ dot :: [dot].intercalate ys := by
  rw [n.bytes_eq, h, intercalate_append hxs hys]

/-- Both sides of a dot are names, and have the components. -/
theorem split_at_dot {n : DnsName} {t s : List UInt8} (h : n.bytes = t ++ dot :: s) :
    ∃ front back : DnsName, front.bytes = t ∧ back.bytes = s ∧ n.components = front.components ++ back.components := by
  have hnul := n.noNul
  have hempty := n.noEmpty
  have hparts : n.bytes.splitOn dot = t.splitOn dot ++ s.splitOn dot := by
    rw [h, List.splitOn_append_cons_self]
  rw [hparts, List.mem_append, not_or] at hempty
  rw [h, List.mem_append, List.mem_cons, not_or, not_or] at hnul
  exact ⟨⟨t, hnul.1, hempty.1⟩, ⟨s, hnul.2.2, hempty.2⟩, rfl, rfl, hparts⟩

theorem components_inj {m n : DnsName} (h : m.components = n.components) : m = n := by
  ext1
  rw [m.bytes_eq, h, ← n.bytes_eq]

/-! ## Round trip and prefixes -/

/-- Whether a text is the whole name, or what follows one of its dots. -/
def IsEnd (s n : List UInt8) : Prop := s = n ∨ ∃ t, n = t ++ dot :: s

/-- A byte before what would be the dot excludes a suffix. -/
theorem not_isEnd_of_getElem? {s n : List UInt8} {c : UInt8} (hlen : s.length < n.length)
    (hc : n[n.length - s.length - 1]? = some c) (hdot : c ≠ dot) : ¬ IsEnd s n := by
  rintro (rfl | ⟨t, rfl⟩)
  · exact absurd hlen (Nat.lt_irrefl _)
  · have hpos : (t ++ dot :: s).length - s.length - 1 = t.length := by
      simp only [List.length_append, List.length_cons]
      omega
    rw [hpos, List.getElem?_append_right (Nat.le_refl _), Nat.sub_self, List.getElem?_cons_zero] at hc
    exact hdot (Option.some.inj hc).symm

theorem isEnd_iff_suffix (s n : DnsName) : IsEnd s.bytes n.bytes ↔ s.components <:+ n.components := by
  constructor
  · rintro (h | ⟨t, h⟩)
    · obtain rfl := DnsName.ext h
      exact List.suffix_refl _
    · obtain ⟨front, back, -, hback, hparts⟩ := split_at_dot h
      obtain rfl := DnsName.ext hback
      exact ⟨front.components, hparts.symm⟩
  · rintro ⟨xs, hxs⟩
    by_cases h : xs = []
    · subst h
      exact .inl (congrArg bytes (components_inj hxs))
    · have hbytes := bytes_of_components hxs.symm h s.components_ne_nil
      rw [← s.bytes_eq] at hbytes
      exact .inr ⟨_, hbytes⟩

theorem decodeName_encodeName (n : DnsName) : decodeName (encodeName n.bytes) = n.bytes := by
  obtain ⟨part, parts, hparts⟩ := List.exists_cons_of_ne_nil n.components_ne_nil
  have hmem : ∀ p ∈ parts.reverse ++ [part], p ∈ n.components := by
    intro p hp
    rw [hparts]
    simpa [or_comm] using hp
  have hread := (decodeName_terminated (fun p hp => n.nul_not_mem (hmem p hp))
    (fun p hp => n.component_ne_nil (hmem p hp))).2
  rw [encodeName_bytes, hparts, List.reverse_cons, hread, List.reverse_reverse, ← hparts, ← n.bytes_eq]

theorem encodeName_injective {m n : DnsName} (h : encodeName m.bytes = encodeName n.bytes) : m = n := by
  have hread := congrArg decodeName h
  rw [decodeName_encodeName, decodeName_encodeName] at hread
  exact DnsName.ext hread

theorem encodeName_prefix_iff (s n : DnsName) :
    encodeName s.bytes <+: encodeName n.bytes ↔ IsEnd s.bytes n.bytes := by
  rw [encodeName_bytes, encodeName_bytes, isEnd_iff_suffix, ← List.reverse_prefix]
  exact terminated_prefix_iff (fun p hp => s.nul_not_mem (List.mem_reverse.1 hp))
    (fun p hp => n.nul_not_mem (List.mem_reverse.1 hp))

/-! ## What a prefix of a written name is read as -/

/-- Whether so many bytes, not all, stop at the end of a component: before or behind its terminator. -/
def EndsComponent (encoded : List UInt8) (k : Nat) : Prop :=
  0 < k ∧ (encoded[k]? = some 0 ∨ encoded[k - 1]? = some 0)

/-- What is read of a proper prefix: the last components, or what does not begin at a component. -/
inductive PrefixRead (n : DnsName) (k : Nat) : Prop
  | whole (xs ys : List (List UInt8)) (hys : ys ≠ []) (components : n.components = xs ++ ys)
    (ends : EndsComponent (encodeName n.bytes) k)
    (read : decodeName ((encodeName n.bytes).take k) = [dot].intercalate ys)
  | broken (front part rest : List UInt8) (i : Nat) (lt : i < part.length) (hdot : dot ∉ part)
    (bytes : n.bytes = front ++ part ++ rest) (ends : ¬ EndsComponent (encodeName n.bytes) k)
    (read : decodeName ((encodeName n.bytes).take k) = part.take i ++ rest)

theorem endsComponent_iff (xs ys : List (List UInt8)) {part : List UInt8} {i : Nat} (hpart : 0 ∉ part)
    (hne : part ≠ []) (hi : i ≤ part.length) :
    EndsComponent (terminated 0 (xs ++ part :: ys)) ((terminated 0 xs).length + i) ↔
      i = part.length ∨ i = 0 ∧ xs ≠ [] := by
  have hpos := List.length_pos_of_ne_nil hne
  have hat : ∀ j, (terminated 0 (xs ++ part :: ys))[(terminated 0 xs).length + j]? =
      (part ++ 0 :: terminated 0 ys)[j]? := by
    intro j
    rw [terminated_append, List.getElem?_append_right (Nat.le_add_right _ _), Nat.add_sub_cancel_left, terminated_cons]
  have hin : ∀ j < part.length, (part ++ 0 :: terminated 0 ys)[j]? ≠ some 0 := by
    intro j hj h
    rw [List.getElem?_append_left hj, List.getElem?_eq_getElem hj] at h
    exact hpart (Option.some.inj h ▸ List.getElem_mem hj)
  rcases Nat.lt_or_eq_of_le hi with hlt | rfl
  · rw [EndsComponent, hat i]
    rcases Nat.eq_zero_or_pos i with rfl | hi0
    · constructor
      · rintro ⟨h0, -⟩
        refine .inr ⟨rfl, ?_⟩
        rintro rfl
        exact Nat.lt_irrefl 0 h0
      · rintro (h | ⟨-, hxs⟩)
        · exact absurd h (Nat.ne_of_lt hpos)
        · have hend : terminated 0 xs = [0].intercalate xs ++ [(0 : UInt8)] := terminated_eq_intercalate hxs
          refine ⟨by rw [hend]; simp, .inr ?_⟩
          rw [terminated_append, Nat.add_zero, List.getElem?_append_left (by rw [hend]; simp), hend]
          simp
    · constructor
      · rintro ⟨-, h | h⟩
        · exact absurd h (hin i hlt)
        · rw [Nat.add_sub_assoc hi0, hat] at h
          exact absurd h (hin _ (by omega))
      · rintro (h | ⟨h, -⟩) <;> omega
  · refine iff_of_true ⟨by omega, .inl ?_⟩ (.inl rfl)
    rw [hat, List.getElem?_append_right (Nat.le_refl _), Nat.sub_self, List.getElem?_cons_zero]

theorem prefixRead (n : DnsName) {k : Nat} (hk : k < (encodeName n.bytes).length) : PrefixRead n k := by
  have henc := n.encodeName_bytes
  rw [henc] at hk
  obtain ⟨xs, part, ys, i, hi, hparts, rfl, htake⟩ := take_terminated hk
  have hcomp : n.components = ys.reverse ++ part :: xs.reverse := by
    rw [← n.components.reverse_reverse, hparts]
    simp
  have hmem : ∀ p ∈ xs ++ [part], p ∈ n.components := by
    intro p hp
    rw [hcomp]
    rcases List.mem_append.1 hp with hp | hp
    · simp [hp]
    · simp [List.mem_singleton.1 hp]
  have hnul : ∀ p ∈ xs ++ [part], 0 ∉ p := fun p hp => n.nul_not_mem (hmem p hp)
  have hne : ∀ p ∈ xs ++ [part], p ≠ [] := fun p hp => n.component_ne_nil (hmem p hp)
  have hpart := hmem part (by simp)
  have hends := endsComponent_iff xs ys (n.nul_not_mem hpart) (n.component_ne_nil hpart) hi
  rw [← hparts, ← henc] at hends
  rw [← henc] at htake
  by_cases hwhole : i = part.length
  · -- the prefix has the component without its terminator
    refine .whole ys.reverse (part :: xs.reverse) (List.cons_ne_nil _ _) hcomp (hends.2 (.inl hwhole)) ?_
    rw [htake, hwhole, List.take_length]
    exact (decodeName_terminated hnul hne).1
  · by_cases hbehind : i = 0 ∧ xs ≠ []
    · -- the prefix ends with the terminator of the component before
      obtain ⟨rfl, hxs⟩ := hbehind
      refine .whole (ys.reverse ++ [part]) xs.reverse (by simpa using hxs) (by simpa using hcomp)
        (hends.2 (.inr ⟨rfl, hxs⟩)) ?_
      obtain ⟨front, last, rfl⟩ := (List.eq_nil_or_concat xs).resolve_left hxs
      rw [htake, List.take_zero, List.append_nil, List.concat_eq_append, List.reverse_append]
      exact (decodeName_terminated (fun p hp => hnul p (by simp at hp ⊢; tauto))
        (fun p hp => hne p (by simp at hp ⊢; tauto))).2
    · obtain ⟨front, hfront⟩ := intercalate_around dot ys.reverse part xs.reverse
      refine .broken front part (xs.reverse.flatMap (dot :: ·)) i (Nat.lt_of_le_of_ne hi hwhole) (n.dot_not_mem hpart)
        ?_ (fun h => (hends.1 h).elim hwhole hbehind) ?_
      · rw [n.bytes_eq, hcomp, hfront]
      · by_cases hstart : i = 0
        · -- nothing at all is read of an empty prefix
          have hxs : xs = [] := by_contra fun h => hbehind ⟨hstart, h⟩
          rw [htake, hstart, hxs]
          rfl
        · have hread := (@decodeName_terminated xs (part.take i) ?_ ?_).1
          · rw [htake, hread, intercalate_cons_eq]
          · intro p hp hmem
            rcases List.mem_append.1 hp with hp | hp
            · exact hnul p (List.mem_append_left _ hp) hmem
            · cases List.mem_singleton.1 hp
              exact n.nul_not_mem hpart (List.mem_of_mem_take hmem)
          · intro p hp hnil
            rcases List.mem_append.1 hp with hp | hp
            · exact hne p (List.mem_append_left _ hp) hnil
            · cases List.mem_singleton.1 hp
              rcases List.take_eq_nil_iff.1 hnil with h | h
              · exact hstart h
              · exact n.component_ne_nil hpart h

end DnsName

end TonWallet.SmcEnvelope
