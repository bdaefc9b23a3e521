/-
Resolving a domain name (`ManualDns::resolve_raw`, `TonlibClient::finish_dns_resolve`): a resolver that knows a prefix
of the written name only answers with the next resolver, which is asked for the components that are left. A resolver
may answer with any number of whole bytes; the split is refused when they do not stop at the end of a component.
-/
import TonWallet.SmcEnvelope.DnsName
import TonWallet.SmcEnvelope.WalletInterface

namespace TonWallet.Tonlib

open Lib TonWallet.Td TonWallet.Ton TonWallet.Vm TonWallet.Block TonWallet.SmcEnvelope

/-! ## Asking a resolver -/

/-- `DnsInterface::EntryData`. -/
inductive DnsEntryData
  | text (text : List UInt8)
  | nextResolver (resolver : StdAddress)
  | adnlAddress (adnlAddress : Bits256)
  | smcAddress (smcAddress : StdAddress)

/-- `DnsInterface::RawEntry` and `DnsInterface::Entry`, by what they hold as data. -/
structure DnsEntry (Data : Type) where
  name : List UInt8
  category : Int
  data : Data

/-- What the get method `dnsresolve` leaves: whether it succeeded, the cell popped of the stack and the number under
it. -/
structure DnsAnswer where
  success : Bool
  data : Result (Option Cell)
  prefixSize : Result Int

/-- A resolver: its get method, the categories in a dictionary of them and how the cell of an entry is read. -/
structure DnsResolver where
  dnsresolve : Cell → Int → DnsAnswer
  categories : Cell → Result (List (Int × Option Cell))
  fromCellslice : Option Cell → Result DnsEntryData

namespace DnsResolver

variable (dns : DnsResolver)

/-- `get_default_max_name_size`. -/
def maxNameSize : Nat := 128

/-- `pop_smallint_range`. -/
def popSmallintRange (max : Nat) (top : Result Int) : Result Nat := do
  let res ← top
  if res > max ∨ res < 0 then .error (.vmError "integer out of range") else return res.toNat

/-- The entries for a part of the name or the whole name. -/
def entriesFor (name : List UInt8) (category : Int) (data : Cell) (prefixSize : Nat) :
    Result (List (DnsEntry (Option Cell))) :=
  let encoded := encodeName name
  if prefixSize < encoded.length then .ok [⟨decodeName (encoded.take prefixSize), -1, some data⟩]
  else if category = 0 then (dns.categories data).map fun l => l.map fun entry => ⟨name, entry.1, entry.2⟩
  else .ok [⟨name, category, some data⟩]

variable [Digest]

/-- `resolve_raw_or_throw`. -/
def resolveRawOrThrow (name : List UInt8) (categoryBig : Int) : Result (List (DnsEntry (Option Cell))) := do
  failIf (categoryBig < -2 ^ 15 ∨ 2 ^ 15 ≤ categoryBig) "Narrow cast failed"
  failIf (maxNameSize < name.length) "Name is too long"
  let encoded := encodeName name
  let cb ← CellBuilder.storeBits (bytesToBits encoded) {}
  let args ← cb.finalize
  let res := dns.dnsresolve args categoryBig
  failIf (¬ res.success) "get method failed"
  match ← res.data with
    | none => return []
    | some data =>
      let prefixSize ← popSmallintRange (encoded.length * 8) res.prefixSize
      failIf (prefixSize % 8 ≠ 0) "Prefix size is not divisible by 8"
      dns.entriesFor name categoryBig data (prefixSize / 8)

/-- `DnsInterface::resolve`. -/
def resolve (name : List UInt8) (category : Int) : Result (List (DnsEntry DnsEntryData)) := do
  let raw ← tryVm (dns.resolveRawOrThrow name category)
  raw.mapM fun entry => do return ⟨entry.name, entry.category, ← dns.fromCellslice entry.data⟩

end DnsResolver

/-! ## The next step -/

/-- What is done with the entries: another resolver is asked, or they are the answer. -/
inductive DnsStep
  | request (name : List UInt8) (category ttl : Int) (address : StdAddress)
  | resolved (entries : List (DnsEntry DnsEntryData))

/-- The name of the next request, without the suffix that the resolver knows. -/
def splitName (name gotName : List UInt8) : Result (List UInt8) :=
  if gotName.length ≥ name.length then .error (.status (TonlibError.internal "domain is too long"))
  else
    let dotPosition := name.length - gotName.length - 1
    if name[dotPosition]? ≠ some dot then fail "next resolver error: domain split not at a component boundary "
    else if name.drop (dotPosition + 1) ≠ gotName then
      .error (.status (TonlibError.internal "domain is not a suffix of the query"))
    else .ok (name.take dotPosition)

/-- `finish_dns_resolve`, once the entries are there. -/
def finishDnsResolve (name : List UInt8) (category ttl : Int) : List (DnsEntry DnsEntryData) → Result DnsStep
  | [⟨gotName, gotCategory, .nextResolver resolver⟩] =>
    if gotCategory = -1 ∧ gotName ≠ name ∧ ttl > 0 then do
      return .request (← splitName name gotName) category (ttl - 1) resolver
    else .ok (.resolved [⟨gotName, gotCategory, .nextResolver resolver⟩])
  | entries => .ok (.resolved entries)

/-! ## The split -/

theorem splitName_dot (front back : List UInt8) : splitName (front ++ dot :: back) back = .ok front := by
  have hlen : ¬ back.length ≥ (front ++ dot :: back).length := by
    simp only [List.length_append, List.length_cons]
    omega
  have hpos : (front ++ dot :: back).length - back.length - 1 = front.length := by
    simp only [List.length_append, List.length_cons]
    omega
  have hdot : (front ++ dot :: back)[front.length]? = some dot := by simp
  have hback : (front ++ dot :: back).drop (front.length + 1) = back := by simp [← List.drop_drop]
  have hfront : (front ++ dot :: back).take front.length = front := List.take_left
  simp only [splitName, hpos, hdot, hback, hfront, if_neg hlen, ne_eq, not_true_eq_false, if_false]

/-- What begins in the middle of a component is refused. -/
theorem splitName_broken (front rest : List UInt8) {part : List UInt8} {i : Nat} (hi : i < part.length) (hdot : dot ∉ part) :
    ¬ DnsName.IsEnd (part.take i ++ rest) (front ++ part ++ rest) ∧
      splitName (front ++ part ++ rest) (part.take i ++ rest) =
        fail "next resolver error: domain split not at a component boundary " := by
  have hlen : (part.take i ++ rest).length < (front ++ part ++ rest).length := by
    simp only [List.length_append, List.length_take]
    omega
  have hpos : (front ++ part ++ rest).length - (part.take i ++ rest).length - 1 =
      front.length + (part.length - i - 1) := by
    simp only [List.length_append, List.length_take]
    omega
  have hin : part.length - i - 1 < part.length := by omega
  have hbyte : (front ++ part ++ rest)[(front ++ part ++ rest).length - (part.take i ++ rest).length - 1]? =
      some part[part.length - i - 1] := by
    rw [hpos, List.append_assoc, List.getElem?_append_right (Nat.le_add_right _ _), Nat.add_sub_cancel_left,
      List.getElem?_append_left hin, List.getElem?_eq_getElem hin]
  have hne : part[part.length - i - 1] ≠ dot := fun h => hdot (h ▸ List.getElem_mem hin)
  refine ⟨DnsName.not_isEnd_of_getElem? hlen hbyte hne, ?_⟩
  simp only [splitName]
  rw [if_neg (not_le.2 hlen), hbyte, if_pos (fun h => hne (Option.some.inj h))]

/-- The entry of a resolver that knows a prefix of the written name. -/
def resolverEntry (name : List UInt8) (resolver : StdAddress) : DnsEntry DnsEntryData :=
  ⟨name, -1, .nextResolver resolver⟩

theorem finishDnsResolve_split {name gotName : List UInt8} {category ttl : Int} (resolver : StdAddress)
    (hne : gotName ≠ name) (httl : 0 < ttl) :
    finishDnsResolve name category ttl [resolverEntry gotName resolver] =
      (splitName name gotName).map fun front => .request front category (ttl - 1) resolver := by
  rw [resolverEntry, finishDnsResolve, if_pos ⟨rfl, hne, httl⟩]
  cases splitName name gotName <;> rfl

/-! ## What a resolver can answer -/

/-- The names of the entries: the whole name, or what is read of a prefix that is not all of it. -/
theorem DnsResolver.entriesFor_cases {dns : DnsResolver} {name : List UInt8} {category : Int} {data : Cell}
    {prefixSize : Nat} {raw : List (DnsEntry (Option Cell))}
    (h : dns.entriesFor name category data prefixSize = .ok raw) :
    (∀ entry ∈ raw, entry.name = name) ∨
      ∃ k < (encodeName name).length, ∃ data, raw = [⟨decodeName ((encodeName name).take k), -1, data⟩] := by
  rw [entriesFor] at h
  split at h
  · next hlt =>
    cases h
    exact .inr ⟨prefixSize, hlt, some data, rfl⟩
  · split at h
    · cases hcat : dns.categories data with
      | error e =>
        rw [hcat] at h
        cases h
      | ok entries =>
        rw [hcat] at h
        cases h
        refine .inl fun entry hentry => ?_
        obtain ⟨e, -, rfl⟩ := List.mem_map.1 hentry
        rfl
    · cases h
      exact .inl fun entry hentry => by rw [List.mem_singleton.1 hentry]

section

variable [Digest]

theorem DnsResolver.resolveRawOrThrow_cases {dns : DnsResolver} {name : List UInt8} {category : Int}
    {raw : List (DnsEntry (Option Cell))} (h : dns.resolveRawOrThrow name category = .ok raw) :
    (∀ entry ∈ raw, entry.name = name) ∨
      ∃ k < (encodeName name).length, ∃ data, raw = [⟨decodeName ((encodeName name).take k), -1, data⟩] := by
  obtain ⟨_, -, h⟩ := bind_ok h
  obtain ⟨_, -, h⟩ := bind_ok h
  obtain ⟨cb, -, h⟩ := bind_ok h
  obtain ⟨args, -, h⟩ := bind_ok h
  obtain ⟨_, -, h⟩ := bind_ok h
  obtain ⟨data, -, h⟩ := bind_ok h
  cases data with
  | none =>
    cases h
    exact .inl fun _ hentry => absurd hentry List.not_mem_nil
  | some data =>
    obtain ⟨prefixSize, -, h⟩ := bind_ok h
    obtain ⟨_, -, h⟩ := bind_ok h
    exact entriesFor_cases h

omit [Digest] in
/-- What every call of a row of calls keeps. -/
theorem map_eq_of_mapM {α β γ : Type} {f : α → Result β} {p : α → γ} {q : β → γ} {l : List α} {r : List β}
    (hf : ∀ a b, f a = .ok b → q b = p a) (h : l.mapM f = .ok r) : r.map q = l.map p := by
  induction l generalizing r with
  | nil =>
    cases h
    rfl
  | cons a l ih =>
    rw [List.mapM_cons] at h
    obtain ⟨b, hb, h⟩ := bind_ok h
    obtain ⟨r', hr', h⟩ := bind_ok h
    cases h
    rw [List.map_cons, List.map_cons, hf a b hb, ih hr']

theorem DnsResolver.resolve_cases {dns : DnsResolver} {name : List UInt8} {category : Int}
    {entries : List (DnsEntry DnsEntryData)} (h : dns.resolve name category = .ok entries) :
    (∀ entry ∈ entries, entry.name = name) ∨
      ∃ k < (encodeName name).length, ∃ data, entries = [⟨decodeName ((encodeName name).take k), -1, data⟩] := by
  obtain ⟨raw, hraw, h⟩ := bind_ok h
  have hkeep : entries.map (fun e => (e.name, e.category)) = raw.map fun e => (e.name, e.category) := by
    refine map_eq_of_mapM ?_ h
    rintro a b hb
    obtain ⟨data, -, hb⟩ := bind_ok hb
    cases hb
    rfl
  rcases resolveRawOrThrow_cases (by simpa [tryVm] using hraw) with hall | ⟨k, hk, data, rfl⟩
  · refine .inl fun entry hentry => ?_
    have hmem : (entry.name, entry.category) ∈ raw.map fun e => (e.name, e.category) := by
      rw [← hkeep]
      exact List.mem_map_of_mem hentry
    obtain ⟨e, he, heq⟩ := List.mem_map.1 hmem
    rw [← hall e he]
    exact (congrArg Prod.fst heq).symm
  · obtain ⟨entry, rfl, hentry⟩ : ∃ entry, entries = [entry] ∧
        (entry.name, entry.category) = (decodeName ((encodeName name).take k), (-1 : Int)) := by
      cases entries with
      | nil => cases hkeep
      | cons entry rest =>
        rw [List.map_cons, List.map_singleton] at hkeep
        obtain ⟨hhead, htail⟩ := List.cons.inj hkeep
        rw [List.map_eq_nil_iff.1 htail]
        exact ⟨entry, rfl, hhead⟩
    obtain ⟨entryName, entryCategory, entryData⟩ := entry
    cases hentry
    exact .inr ⟨k, hk, entryData, rfl⟩

/-! ## Names, resolvers and splits -/

omit [Digest] in
/-- A prefix that stops at the end of a component is read as the name or a suffix behind a dot, and the split gives
back the components before it. -/
theorem finishDnsResolve_ends {n : DnsName} {k : Nat} (hk : k < (encodeName n.bytes).length)
    (hends : DnsName.EndsComponent (encodeName n.bytes) k) {category ttl : Int} (httl : 0 < ttl) (resolver : StdAddress) :
    decodeName ((encodeName n.bytes).take k) = n.bytes ∨
      ∃ front back : DnsName, decodeName ((encodeName n.bytes).take k) = back.bytes ∧
        n.bytes = front.bytes ++ dot :: back.bytes ∧ n.components = front.components ++ back.components ∧
        finishDnsResolve n.bytes category ttl [resolverEntry back.bytes resolver] =
          .ok (.request front.bytes category (ttl - 1) resolver) := by
  cases n.prefixRead hk with
  | broken front part rest i lt hdot bytes hnot read => exact absurd hends hnot
  | whole xs ys hys components _ read =>
    rw [read]
    by_cases hxs : xs = []
    · subst hxs
      rw [List.nil_append] at components
      exact .inl (by rw [n.bytes_eq, components])
    · have hbytes := DnsName.bytes_of_components components hxs hys
      obtain ⟨front, back, hfront, hback, hparts⟩ := DnsName.split_at_dot hbytes
      rw [← hfront, ← hback] at hbytes
      have hne : back.bytes ≠ n.bytes := by
        intro h
        have hlen := congrArg List.length hbytes
        rw [List.length_append, List.length_cons, h] at hlen
        omega
      refine .inr ⟨front, back, hback.symm, hbytes, hparts, ?_⟩
      rw [finishDnsResolve_split resolver hne httl, hbytes, splitName_dot]
      rfl

omit [Digest] in
/-- Every other prefix is read as no suffix, and its split is refused. -/
theorem finishDnsResolve_broken {n : DnsName} {k : Nat} (hk : k < (encodeName n.bytes).length)
    (hends : ¬ DnsName.EndsComponent (encodeName n.bytes) k) {category ttl : Int} (httl : 0 < ttl) (resolver : StdAddress) :
    ¬ DnsName.IsEnd (decodeName ((encodeName n.bytes).take k)) n.bytes ∧
      finishDnsResolve n.bytes category ttl [resolverEntry (decodeName ((encodeName n.bytes).take k)) resolver] =
        fail "next resolver error: domain split not at a component boundary " := by
  cases n.prefixRead hk with
  | whole xs ys hys components ends read => exact absurd ends hends
  | broken front part rest i lt hdot bytes _ read =>
    obtain ⟨hnot, hsplit⟩ := splitName_broken front rest lt hdot
    rw [read, bytes]
    refine ⟨hnot, ?_⟩
    rw [finishDnsResolve_split resolver (fun h => hnot (.inl h)) httl, hsplit]
    rfl

/-- Names are read back from what is written of them and are told apart by it; what is written of a name begins with
what is written of exactly its ends. A resolver answers for the whole name or for a prefix of what is written: one that
stops at the end of a component is an end of the name and the split leaves the components before it; the split of any
other is refused. -/
theorem DnsResolver.names_and_splits :
    (∀ n : DnsName, decodeName (encodeName n.bytes) = n.bytes) ∧
    (∀ m n : DnsName, encodeName m.bytes = encodeName n.bytes → m = n) ∧
    (∀ s n : DnsName, encodeName s.bytes <+: encodeName n.bytes ↔
      s.bytes = n.bytes ∨ ∃ t, n.bytes = t ++ dot :: s.bytes) ∧
    (∀ (dns : DnsResolver) (n : DnsName) (category : Int) (entries : List (DnsEntry DnsEntryData)),
      dns.resolve n.bytes category = .ok entries → (∀ entry ∈ entries, entry.name = n.bytes) ∨
        ∃ k < (encodeName n.bytes).length, ∃ data,
          entries = [⟨decodeName ((encodeName n.bytes).take k), -1, data⟩]) ∧
    ∀ (n : DnsName) (k : Nat) (category ttl : Int) (resolver : StdAddress), k < (encodeName n.bytes).length → 0 < ttl →
      (DnsName.EndsComponent (encodeName n.bytes) k → decodeName ((encodeName n.bytes).take k) = n.bytes ∨
        ∃ front back : DnsName, decodeName ((encodeName n.bytes).take k) = back.bytes ∧
          n.bytes = front.bytes ++ dot :: back.bytes ∧ n.components = front.components ++ back.components ∧
          finishDnsResolve n.bytes category ttl [resolverEntry back.bytes resolver] =
            .ok (.request front.bytes category (ttl - 1) resolver)) ∧
      (¬ DnsName.EndsComponent (encodeName n.bytes) k →
        ¬ DnsName.IsEnd (decodeName ((encodeName n.bytes).take k)) n.bytes ∧
        finishDnsResolve n.bytes category ttl [resolverEntry (decodeName ((encodeName n.bytes).take k)) resolver] =
          fail "next resolver error: domain split not at a component boundary ") := by
  refine ⟨DnsName.decodeName_encodeName, fun m n => DnsName.encodeName_injective, DnsName.encodeName_prefix_iff,
    fun dns n category entries => resolve_cases, ?_⟩
  intro n k category ttl resolver hk httl
  constructor
  · intro hends
    exact finishDnsResolve_ends hk hends httl resolver
  · intro hends
    exact finishDnsResolve_broken hk hends httl resolver

end

namespace DnsResolver.Sample

/-- `ab.c`. -/
def name : DnsName := ⟨[97, 98, 46, 99], by decide, by decide⟩

/-- The resolver of `c` sends on to another one for `ab`. -/
theorem splits_name :
    decodeName ((encodeName name.bytes).take 2) = name.bytes ∨
      ∃ front back : DnsName, decodeName ((encodeName name.bytes).take 2) = back.bytes ∧
        name.bytes = front.bytes ++ dot :: back.bytes ∧ name.components = front.components ++ back.components ∧
        finishDnsResolve name.bytes 0 4 [resolverEntry back.bytes (SmcEnvelope.Sample.threes 0)] =
          .ok (.request front.bytes 0 (4 - 1) (SmcEnvelope.Sample.threes 0)) :=
  ((@names_and_splits SmcEnvelope.Sample.digest).2.2.2.2 name 2 0 4 (SmcEnvelope.Sample.threes 0) (by decide)
    (by decide)).1 ⟨by decide, by decide⟩

/-- A resolver that says it knows so many bits. -/
def answering (bits : Int) : DnsResolver where
  dnsresolve _ _ := ⟨true, .ok (some (.mk false [] [])), .ok bits⟩
  categories _ := .ok []
  fromCellslice _ := .ok (.nextResolver (SmcEnvelope.Sample.threes 0))

/-- `ab`. -/
def short : DnsName := ⟨[97, 98], by decide, by decide⟩

/-- A resolver that knows the first byte of `ab` is asked; `a` is no end of the name. -/
theorem answers_inside :
    ¬ ∀ (_ : Digest) (dns : DnsResolver) (n : DnsName) (category : Int) (entries : List (DnsEntry DnsEntryData)),
      dns.resolve n.bytes category = .ok entries →
        ∀ entry ∈ entries, entry.name = n.bytes ∨ ∃ t, n.bytes = t ++ dot :: entry.name := by
  intro h
  have hresolve : @resolve (answering 8) SmcEnvelope.Sample.digest short.bytes 0 =
      .ok [resolverEntry [97] (SmcEnvelope.Sample.threes 0)] := by
    rfl
  rcases h _ _ _ _ _ hresolve _ List.mem_cons_self with hname | ⟨t, ht⟩
  · exact absurd hname (by decide)
  · have hdot : dot ∈ short.bytes := by
      rw [ht]
      simp
    exact absurd hdot (by decide)

end DnsResolver.Sample

end TonWallet.Tonlib
