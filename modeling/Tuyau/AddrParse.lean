import Mathlib.Data.List.GetD
import Tuyau.BigEndian
import Tuyau.Net
import Tuyau.TextReader

/-! # Socket addresses read back

`FromStr` of `std::net::SocketAddr`.  Its parser takes an IPv4 address with a port, and if there is none an
IPv6 address in brackets with an optional zone.  The groups of an IPv6 address are read from the left as
far as they go, with an IPv4 address tried in place of any two of them; what is missing to eight groups
then has to be a `::`, with the groups behind it at the end.

The main result is `parse_toText`: every address is read back from its `Display` form, whichever zeroes that
form leaves out. -/

namespace Tuyau

open AsciiText TextReader

namespace AddrParse

variable {α : Type}

/-! ### The parser -/

/-- `read_number`.  A limit on the digits keeps the value small; without one every digit is checked. -/
def readNumber (radix : ℕ) (maxDigits : Option ℕ) (allowZeroPrefix : Bool) (bound : ℕ) : Reader ℕ :=
  match maxDigits with
  | some limit => number radix (fun _ count => decide (count ≤ limit)) allowZeroPrefix bound
  | none => number radix (fun value _ => decide (value < bound)) allowZeroPrefix bound

/-- `read_separator`: the separator comes before every item but the first. -/
def readSeparator (sep : Char) (index : ℕ) (inner : Reader α) : Reader α :=
  if 0 < index then char sep >>= fun _ => inner else inner

def readOctet : Reader UInt8 := readNumber 10 (some 3) false 256 >>= fun n => pure (UInt8.ofNat n)

/-- `read_ipv4_addr`. -/
def readIpv4Addr : Reader (UInt8 × UInt8 × UInt8 × UInt8) := do
  let a ← readSeparator '.' 0 readOctet
  let b ← readSeparator '.' 1 readOctet
  let c ← readSeparator '.' 2 readOctet
  let d ← readSeparator '.' 3 readOctet
  return (a, b, c, d)

def readGroup : Reader UInt16 := readNumber 16 (some 4) true 65536 >>= fun n => pure (UInt16.ofNat n)

/-- `u16::from_be_bytes`. -/
def fromBeBytes (hi lo : UInt8) : UInt16 := UInt16.ofNat (BigEndian.ofBytes [hi, lo])

/-- `read_groups`: the groups at the front of the text, at most `left`, and whether the last two of them
were an IPv4 address. -/
def readGroups (index : ℕ) : ℕ → Text → (List UInt16 × Bool) × Text
  | 0, t => (([], false), t)
  | left + 1, t =>
      -- an IPv4 address takes two groups
      match if 0 < left then readSeparator ':' index readIpv4Addr t else none with
      | some ((a, b, c, d), t) => (([fromBeBytes a b, fromBeBytes c d], true), t)
      | none =>
          match readSeparator ':' index readGroup t with
          | none => (([], false), t)
          | some (g, t) =>
              let r := readGroups (index + 1) left t
              ((g :: r.1.1, r.1.2), r.2)

/-- Eight groups, with `tail` at the end and zeroes in between. -/
def segments (head tail : List UInt16) : Vector UInt16 8 :=
  Vector.ofFn fun i =>
    if 8 - tail.length ≤ i.val then tail.getD (i.val - (8 - tail.length)) 0 else head.getD i.val 0

/-- `read_ipv6_addr`. -/
def readIpv6Addr : Reader (Vector UInt16 8) := fun t =>
  let ((head, headIpv4), t) := readGroups 0 8 t
  if head.length = 8 then some (segments head [], t)
  else if headIpv4 then none
  else
    (char ':' >>= fun _ => char ':' >>= fun _ => fun t =>
      let ((tail, _), t) := readGroups 0 (8 - (head.length + 1)) t
      some (segments head tail, t)) t

def readPort : Reader UInt16 :=
  char ':' >>= fun _ => readNumber 10 none true 65536 >>= fun n => pure (UInt16.ofNat n)

def readScopeId : Reader UInt32 :=
  char '%' >>= fun _ => readNumber 10 none true 4294967296 >>= fun n => pure (UInt32.ofNat n)

def readSocketAddrV4 : Reader SocketAddr := do
  let (a, b, c, d) ← readIpv4Addr
  let port ← readPort
  return .v4 a b c d port

def readSocketAddrV6 : Reader SocketAddr := do
  char '['
  let ip ← readIpv6Addr
  let scopeId ← readScopeId <|> pure 0
  char ']'
  let port ← readPort
  return .v6 ip port scopeId

end AddrParse

/-- `from_str` of an address without a port. -/
def IpAddr.parse (t : Text) : Option IpAddr :=
  let v4 : Reader IpAddr := AddrParse.readIpv4Addr >>= fun (a, b, c, d) => pure (.v4 a b c d)
  let v6 : Reader IpAddr := AddrParse.readIpv6Addr >>= fun segments => pure (.v6 segments)
  match (v4 <|> v6) t with
  | some (ip, []) => some ip
  | _ => none

/-- `from_str`: nothing may be left of the text. -/
def SocketAddr.parse (t : Text) : Option SocketAddr :=
  match (AddrParse.readSocketAddrV4 <|> AddrParse.readSocketAddrV6) t with
  | some (addr, []) => some addr
  | _ => none

namespace AddrParse

/-! ### Numbers and IPv4 addresses -/

section

variable {P : Text → Prop} {inner : Reader α} {t : Text} {a : α}

theorem reads_separated (sep : Char) {index : ℕ} (hindex : 0 < index) (h : Reads P inner t a) :
    Reads P (readSeparator sep index inner) (sep :: t) a := by
  rw [readSeparator, if_pos hindex]
  exact (reads_char (P := fun _ => True) sep).bind h fun _ _ => trivial

theorem reads_limited {radix limit n bound : ℕ} {zeroes : Bool} (h1 : 1 < radix) (h16 : radix ≤ 16)
    (hlen : (Nat.toDigits radix n).length ≤ limit) (hbound : n < bound) :
    Reads (Digitless radix) (readNumber radix (some limit) zeroes bound) (Nat.toDigits radix n) n :=
  reads_number h1 h16 (fun _ _ _ hk => decide_eq_true (hk.trans hlen)) hbound

theorem reads_checked (zeroes : Bool) {n bound : ℕ} (hbound : n < bound) :
    Reads (Digitless 10) (readNumber 10 none zeroes bound) (IpAddr.decimal n) n :=
  reads_number (by decide) (by decide) (fun _ hv _ _ => decide_eq_true (by omega)) hbound

theorem reads_octet (a : UInt8) : Reads (Digitless 10) readOctet (IpAddr.decimal a.toNat) a := by
  have ha := a.toNat_lt
  have hlen : (Nat.toDigits 10 a.toNat).length ≤ 3 :=
    (Nat.length_toDigits_le_iff (by decide) (by decide)).mpr (by omega)
  have hnumber : Reads (Digitless 10) (readNumber 10 (some 3) false 256) (IpAddr.decimal a.toNat) a.toNat :=
    reads_limited (by decide) (by decide) hlen ha
  have h := hnumber.map (f := UInt8.ofNat)
  rwa [UInt8.ofNat_toNat] at h

theorem digitless_nil {radix : ℕ} : Digitless radix [] := by
  intro d hd
  cases hd

theorem digitless_cons {radix : ℕ} {c : Char} (h : toDigit radix c = none) (t : Text) :
    Digitless radix (c :: t) := by
  intro d hd
  cases hd
  exact h

theorem reads_ipv4Addr (a b c d : UInt8) :
    Reads (Digitless 10) readIpv4Addr (IpAddr.dotted a b c d) (a, b, c, d) := by
  have hdot : ∀ {t rest : Text}, Digitless 10 ('.' :: t ++ rest) := digitless_cons (by decide) _
  have htext : IpAddr.dotted a b c d = IpAddr.decimal a.toNat ++ ('.' :: IpAddr.decimal b.toNat ++
      ('.' :: IpAddr.decimal c.toNat ++ ('.' :: IpAddr.decimal d.toNat))) := by
    simp only [IpAddr.dotted, List.append_assoc, List.cons_append]
  rw [htext]
  refine (reads_octet a).bind ?_ fun _ _ => by
    rw [List.append_assoc]
    exact hdot
  refine (reads_separated '.' (by decide) (reads_octet b)).bind ?_ fun _ _ => by
    rw [List.append_assoc]
    exact hdot
  exact (reads_separated '.' (by decide) (reads_octet c)).bind
    (reads_separated '.' (by decide) (reads_octet d)).map fun _ _ => hdot

/-- No IPv4 address starts with a number that no dot follows. -/
theorem readIpv4Addr_eq_none {l : Text} (hl : '.' ∉ l) (ht : Digitless 16 t) (hdot : t.head? ≠ some '.') :
    readIpv4Addr (l ++ t) = none := by
  change (readOctet (l ++ t)).bind _ = none
  cases hfirst : readOctet (l ++ t) with
  | none => rfl
  | some p =>
      obtain ⟨a, rest⟩ := p
      obtain ⟨q, hnumber, hq⟩ := Option.bind_eq_some_iff.mp hfirst
      cases hq
      have hrest := head_of_number hl (ht.mono (by decide)) hdot hnumber
      have hsep : readSeparator '.' 1 readOctet q.2 = none := bind_eq_none (char_eq_none hrest)
      exact bind_eq_none hsep

end

/-! ### The groups of an IPv6 address -/

section

variable {rest : Text}

/-- A group in hexadecimal. -/
def hex (g : UInt16) : Text := Nat.toDigits 16 g.toNat

/-- What may follow groups: nothing that goes on with the last one or starts another. -/
structure EndsGroups (rest : Text) : Prop where
  digitless : Digitless 16 rest
  dot : rest.head? ≠ some '.'
  colon : ∀ t, rest = ':' :: t → Digitless 16 t

theorem reads_group (g : UInt16) : Reads (Digitless 16) readGroup (hex g) g := by
  have hg := g.toNat_lt
  have hlen : (hex g).length ≤ 4 := (Nat.length_toDigits_le_iff (by decide) (by decide)).mpr (by omega)
  have hnumber : Reads (Digitless 16) (readNumber 16 (some 4) true 65536) (hex g) g.toNat :=
    reads_limited (by decide) (by decide) hlen hg
  have h := hnumber.map (f := UInt16.ofNat)
  rwa [UInt16.ofNat_toNat] at h

theorem dot_not_mem_hex (g : UInt16) : '.' ∉ hex g :=
  fun h => absurd (IpAddr.mem_toDigits (by decide) (by decide) h) (by decide)

/-- One group is read, and then those behind it. -/
theorem readGroups_group (index : ℕ) {t : Text} {g : UInt16} {inner : Text} (left : ℕ)
    (ht : ∀ {α : Type} (r : Reader α), readSeparator ':' index r t = r inner) (hinner : inner = hex g ++ rest)
    (hrest : Digitless 16 rest) (hdot : rest.head? ≠ some '.') :
    readGroups index (left + 1) t =
      ((g :: (readGroups (index + 1) left rest).1.1, (readGroups (index + 1) left rest).1.2),
        (readGroups (index + 1) left rest).2) := by
  have hno : (if 0 < left then readSeparator ':' index readIpv4Addr t else none) = none := by
    rw [ht, hinner, readIpv4Addr_eq_none (dot_not_mem_hex g) hrest hdot, ite_self]
  rw [readGroups, hno, ht, hinner, reads_group g rest hrest]

/-- Groups after the first, each with its colon. -/
def colons (l : List UInt16) : Text := l.flatMap fun g => ':' :: hex g

theorem groups_cons (g : UInt16) (l : List UInt16) : IpAddr.groups (g :: l) = hex g ++ colons l := by
  induction l generalizing g with
  | nil => exact (List.append_nil _).symm
  | cons g' l ih =>
      rw [IpAddr.groups, ih g']
      · rfl
      · exact List.cons_ne_nil _ _

theorem readSeparator_ends {r : Reader α} {index : ℕ} (hr : ∀ t, Digitless 16 t → r t = none)
    (hrest : EndsGroups rest) : readSeparator ':' index r rest = none := by
  unfold readSeparator
  split_ifs
  · by_cases hhead : rest.head? = some ':'
    · obtain ⟨t, rfl⟩ := List.head?_eq_some_iff.mp hhead
      exact hr t (hrest.colon t rfl)
    · exact bind_eq_none (char_eq_none hhead)
  · exact hr rest hrest.digitless

theorem readIpv4Addr_of_digitless {t : Text} (h : Digitless 16 t) : readIpv4Addr t = none :=
  bind_eq_none (bind_eq_none (number_of_digitless (h.mono (by decide))))

theorem readGroup_of_digitless {t : Text} (h : Digitless 16 t) : readGroup t = none :=
  bind_eq_none (number_of_digitless h)

theorem readGroups_ends (index left : ℕ) (hrest : EndsGroups rest) :
    readGroups index left rest = (([], false), rest) := by
  cases left with
  | zero => rfl
  | succ left =>
      have hno : (if 0 < left then readSeparator ':' index readIpv4Addr rest else none) = none := by
        rw [readSeparator_ends (fun _ => readIpv4Addr_of_digitless) hrest, ite_self]
      rw [readGroups, hno, readSeparator_ends (fun _ => readGroup_of_digitless) hrest]

/-- Neither a digit nor a dot comes after a group. -/
theorem after_group (l : List UInt16) (hrest : EndsGroups rest) :
    Digitless 16 (colons l ++ rest) ∧ (colons l ++ rest).head? ≠ some '.' := by
  cases l with
  | nil => exact ⟨hrest.digitless, hrest.dot⟩
  | cons g l => exact ⟨digitless_cons (by decide) _, by simp [colons]⟩

theorem readGroups_colons {index left : ℕ} (hindex : 0 < index) {l : List UInt16} (hlen : l.length ≤ left)
    (hrest : EndsGroups rest) : readGroups index left (colons l ++ rest) = ((l, false), rest) := by
  induction l generalizing index left with
  | nil => exact readGroups_ends index left hrest
  | cons g l ih =>
      obtain ⟨left, rfl⟩ : ∃ n, left = n + 1 := ⟨left - 1, by rw [List.length_cons] at hlen; omega⟩
      have hsep : ∀ {α : Type} (r : Reader α),
          readSeparator ':' index r (colons (g :: l) ++ rest) = r (hex g ++ (colons l ++ rest)) := by
        intro α r
        rw [readSeparator, if_pos hindex, ← List.append_assoc]
        rfl
      obtain ⟨hdigit, hdot⟩ := after_group l hrest
      rw [readGroups_group _ left hsep rfl hdigit hdot, ih (Nat.succ_pos _) (Nat.le_of_succ_le_succ hlen)]

/-- Groups are read as far as they are written. -/
theorem readGroups_groups {left : ℕ} {l : List UInt16} (hlen : l.length ≤ left) (hrest : EndsGroups rest) :
    readGroups 0 left (IpAddr.groups l ++ rest) = ((l, false), rest) := by
  cases l with
  | nil => exact readGroups_ends 0 left hrest
  | cons g l =>
      obtain ⟨left, rfl⟩ : ∃ n, left = n + 1 := ⟨left - 1, by rw [List.length_cons] at hlen; omega⟩
      obtain ⟨hdigit, hdot⟩ := after_group l hrest
      have hfirst : ∀ {α : Type} (r : Reader α),
          readSeparator ':' 0 r (IpAddr.groups (g :: l) ++ rest) = r (hex g ++ (colons l ++ rest)) := by
        intro α r
        rw [groups_cons, List.append_assoc]
        rfl
      rw [readGroups_group _ left hfirst rfl hdigit hdot,
        readGroups_colons Nat.one_pos (Nat.le_of_succ_le_succ hlen) hrest]

end

/-! ### IPv6 addresses -/

section

variable {rest : Text}

theorem toList_segments {head tail : List UInt16} (h : head.length + tail.length ≤ 8) :
    (segments head tail).toList =
      head ++ List.replicate (8 - head.length - tail.length) 0 ++ tail := by
  have hlen : (head ++ List.replicate (8 - head.length - tail.length) 0 ++ tail).length = 8 := by
    simp only [List.length_append, List.length_replicate]
    omega
  apply List.ext_getElem
  · rw [hlen, Vector.length_toList]
  · intro i h1 h2
    rw [hlen] at h2
    simp only [segments, Vector.getElem_toList, Vector.getElem_ofFn]
    by_cases htail : 8 - tail.length ≤ i
    · rw [if_pos htail, List.getD_eq_getElem _ _ (by omega), List.getElem_append_right (by simp; omega)]
      congr 1
      simp only [List.length_append, List.length_replicate]
      omega
    · rw [if_neg htail, List.getElem_append_left (by simp; omega)]
      by_cases hhead : i < head.length
      · rw [List.getD_eq_getElem _ _ hhead, List.getElem_append_left hhead]
      · rw [List.getD_eq_default _ _ (by omega), List.getElem_append_right (by omega), List.getElem_replicate]

/-- Eight groups are the whole address. -/
theorem readIpv6Addr_groups {s : List UInt16} (hlen : s.length = 8) (hrest : EndsGroups rest) :
    readIpv6Addr (IpAddr.groups s ++ rest) = some (segments s [], rest) := by
  rw [readIpv6Addr, readGroups_groups (by omega) hrest]
  exact if_pos hlen

theorem endsGroups_cons {c : Char} (hdigit : toDigit 16 c = none) (hdot : c ≠ '.') (hcolon : c ≠ ':')
    (t : Text) : EndsGroups (c :: t) where
  digitless := digitless_cons hdigit t
  dot := fun h => hdot (Option.some.inj h)
  colon := fun _ h => absurd (List.head_eq_of_cons_eq h) hcolon

theorem endsGroups_colons (t : Text) : EndsGroups (':' :: ':' :: t) where
  digitless := digitless_cons (by decide) _
  dot := by simp
  colon := by
    intro u hu
    rw [← List.tail_eq_of_cons_eq hu]
    exact digitless_cons (by decide) _

/-- The groups on both sides of a `::`, read off it by `readGroups`. -/
theorem readIpv6Addr_colons (head : List UInt16) {tail : List UInt16} {t : Text} {ipv4 : Bool}
    (hlen : head.length < 8)
    (htail : readGroups 0 (8 - (head.length + 1)) t = ((tail, ipv4), rest)) :
    readIpv6Addr (IpAddr.groups head ++ ':' :: ':' :: t) = some (segments head tail, rest) := by
  rw [readIpv6Addr, readGroups_groups (by omega) (endsGroups_colons t)]
  dsimp only
  rw [if_neg (by omega), if_neg Bool.false_ne_true]
  change some (segments head (readGroups 0 (8 - (head.length + 1)) t).1.1, _) = _
  rw [htail]

theorem readIpv6Addr_compressed (head tail : List UInt16) (hlen : head.length + tail.length < 8)
    (hrest : EndsGroups rest) :
    readIpv6Addr (IpAddr.groups head ++ ':' :: ':' :: (IpAddr.groups tail ++ rest)) =
      some (segments head tail, rest) :=
  readIpv6Addr_colons head (by omega) (readGroups_groups (by omega) hrest)

/-- An IPv4-mapped address: the IPv4 address at the end is read as two groups. -/
theorem readIpv6Addr_mapped (a b c d : UInt8) (hrest : Digitless 10 rest) :
    readIpv6Addr (':' :: ':' :: (hex 0xffff ++ ':' :: (IpAddr.dotted a b c d ++ rest))) =
      some (segments [] [0xffff, fromBeBytes a b, fromBeBytes c d], rest) := by
  have hipv4 : readGroups 1 6 (':' :: (IpAddr.dotted a b c d ++ rest)) =
      (([fromBeBytes a b, fromBeBytes c d], true), rest) := by
    have h := reads_separated ':' Nat.one_pos (reads_ipv4Addr a b c d) rest hrest
    rw [List.cons_append] at h
    rw [readGroups, if_pos (by decide), h]
  have hgroup := readGroups_group 0 (g := 0xffff) 6 (fun _ => rfl) rfl
    (digitless_cons (c := ':') (by decide) (IpAddr.dotted a b c d ++ rest)) (by simp)
  rw [hipv4] at hgroup
  exact readIpv6Addr_colons [] (by decide) hgroup

end

/-! ### The zeroes that are left out -/

section

/-- A run of zeroes in a list of groups, from its start and its length. -/
def Zeroes (l : List UInt16) (run : ℕ × ℕ) : Prop := ∀ j, run.1 ≤ j → j < run.1 + run.2 → l[j]? = some 0

theorem Zeroes.append {l : List UInt16} {run : ℕ × ℕ} (h : Zeroes l run) (more : List UInt16) :
    Zeroes (l ++ more) run := by
  intro j hstart hend
  have hj := h j hstart hend
  have hlt := (List.getElem?_eq_some_iff.mp hj).1
  rw [List.getElem?_append_left hlt]
  exact hj

theorem zeroes_zeroRun (seen : List UInt16) {l : List UInt16} {cur longest : ℕ × ℕ} (hcur : Zeroes seen cur)
    (hends : cur.2 ≠ 0 → cur.1 + cur.2 = seen.length) (hlongest : Zeroes seen longest) :
    Zeroes (seen ++ l) (IpAddr.zeroRun seen.length l cur longest) := by
  induction l generalizing seen cur longest with
  | nil =>
      rw [List.append_nil]
      exact hlongest
  | cons s l ih =>
      have hnext : seen.length + 1 = (seen ++ [s]).length := by simp
      rw [IpAddr.zeroRun, List.append_cons, hnext]
      by_cases hs : s = 0
      · subst hs
        rw [if_pos rfl]
        dsimp only
        have hrun : Zeroes (seen ++ [0]) (if cur.2 = 0 then (seen.length, 1) else (cur.1, cur.2 + 1)) ∧
            (if cur.2 = 0 then (seen.length, 1) else (cur.1, cur.2 + 1)).1 +
              (if cur.2 = 0 then (seen.length, 1) else (cur.1, cur.2 + 1)).2 = (seen ++ [0]).length := by
          split_ifs with hzero
          · refine ⟨fun j hstart hend => ?_, hnext⟩
            obtain rfl : j = seen.length := by
              dsimp only at hstart hend
              omega
            exact List.getElem?_concat_length
          · refine ⟨fun j hstart hend => ?_, by rw [← hnext, ← hends hzero, Nat.add_assoc]⟩
            have hend' : j < cur.1 + cur.2 ∨ j = seen.length := by
              have := hends hzero
              dsimp only at hend
              omega
            rcases hend' with hold | rfl
            · exact hcur.append [0] j hstart hold
            · exact List.getElem?_concat_length
        generalize (if cur.2 = 0 then (seen.length, 1) else (cur.1, cur.2 + 1)) = next at hrun ⊢
        refine ih (seen ++ [0]) hrun.1 (fun _ => hrun.2) ?_
        split_ifs
        · exact hrun.1
        · exact hlongest.append [0]
      · rw [if_neg hs]
        refine ih (seen ++ [s]) (fun j _ hend => ?_) (fun h => absurd rfl h) (hlongest.append [s])
        simp at hend

/-- What a run of zeroes is cut out of. -/
theorem eq_of_zeroes {l : List UInt16} {run : ℕ × ℕ} (h : Zeroes l run) :
    l.take run.1 ++ List.replicate run.2 0 ++ l.drop (run.1 + run.2) = l := by
  have hrun : (l.drop run.1).take run.2 = List.replicate run.2 0 := by
    apply List.ext_getElem?
    intro j
    by_cases hj : j < run.2
    · rw [List.getElem?_take_of_lt hj, List.getElem?_drop, h _ (by omega) (by omega),
        List.getElem?_replicate_of_lt hj]
    · rw [List.getElem?_eq_none (by simp; omega), List.getElem?_eq_none (by simp; omega)]
  rw [← hrun, ← List.drop_drop, List.append_assoc, List.take_append_drop, List.take_append_drop]

end

theorem fromBeBytes_octets (n : UInt16) : fromBeBytes (n >>> 8).toUInt8 n.toUInt8 = n := by
  apply UInt16.toNat_inj.mp
  have hn := n.toNat_lt
  have hhi : (n >>> 8).toUInt8.toNat = n.toNat / 256 := by
    rw [UInt16.toNat_toUInt8, UInt16.toNat_shiftRight]
    change n.toNat >>> 8 % 256 = _
    rw [Nat.shiftRight_eq_div_pow]
    omega
  have hlo : n.toUInt8.toNat = n.toNat % 256 := UInt16.toNat_toUInt8 n
  have hbytes : BigEndian.ofBytes [(n >>> 8).toUInt8, n.toUInt8] = n.toNat := by
    simp only [BigEndian.ofBytes, List.foldl_cons, List.foldl_nil, hhi, hlo]
    omega
  rw [fromBeBytes, hbytes, UInt16.ofNat_toNat]

theorem toIpv4Mapped_eq_some {s : List UInt16} {octets : UInt8 × UInt8 × UInt8 × UInt8}
    (h : IpAddr.toIpv4Mapped s = some octets) : ∃ ab cd, s = [0, 0, 0, 0, 0, 0xffff, ab, cd] ∧
      octets = ((ab >>> 8).toUInt8, ab.toUInt8, (cd >>> 8).toUInt8, cd.toUInt8) := by
  unfold IpAddr.toIpv4Mapped at h
  split at h
  · next ab cd => exact ⟨ab, cd, rfl, (Option.some.inj h).symm⟩
  · cases h

theorem reads_ipv6Addr (s : Vector UInt16 8) : Reads EndsGroups readIpv6Addr (IpAddr.v6 s).toText s := by
  intro rest hrest
  have hlen : s.toList.length = 8 := s.length_toList
  have hsegments : ∀ head tail, head.length + tail.length ≤ 8 →
      head ++ List.replicate (8 - head.length - tail.length) 0 ++ tail = s.toList →
      segments head tail = s := by
    intro head tail hle h
    apply Vector.toList_inj.mp
    rw [toList_segments hle, h]
  rw [IpAddr.toText]
  dsimp only
  cases hmapped : IpAddr.toIpv4Mapped s.toList with
  | some octets =>
      obtain ⟨ab, cd, hs, rfl⟩ := toIpv4Mapped_eq_some hmapped
      have hread := readIpv6Addr_mapped (ab >>> 8).toUInt8 ab.toUInt8 (cd >>> 8).toUInt8 cd.toUInt8
        (hrest.digitless.mono (by decide))
      rw [fromBeBytes_octets, fromBeBytes_octets, hsegments [] _ (by simp) hs.symm] at hread
      rw [List.append_assoc]
      exact hread
  | none =>
      have hrun : Zeroes s.toList (IpAddr.zeroRun 0 s.toList (0, 0) (0, 0)) :=
        zeroes_zeroRun [] (fun j _ hj => absurd hj (by simp)) (fun h => absurd rfl h)
          fun j _ hj => absurd hj (by simp)
      have hle := @IpAddr.zeroRun_le 0 s.toList (0, 0) (0, 0) (Nat.le_refl _) (Nat.le_refl _)
      generalize IpAddr.zeroRun 0 s.toList (0, 0) (0, 0) = z at hrun hle ⊢
      rw [Nat.zero_add] at hle
      dsimp only
      split_ifs with hz
      · have hcut : (s.toList.take z.1).length + (s.toList.drop (z.1 + z.2)).length = 8 - z.2 := by
          simp only [List.length_take, List.length_drop]
          omega
        have hread := readIpv6Addr_compressed (s.toList.take z.1) (s.toList.drop (z.1 + z.2))
          (by omega) hrest
        rw [hsegments _ _ (by omega)] at hread
        · rw [List.append_assoc, List.append_assoc]
          exact hread
        · have hzeroes : 8 - (s.toList.take z.1).length - (s.toList.drop (z.1 + z.2)).length = z.2 := by
            omega
          rw [hzeroes, eq_of_zeroes hrun]
      · rw [readIpv6Addr_groups hlen hrest, hsegments _ [] (by simp [hlen]) (by simp [hlen])]

/-! ### Socket addresses -/

theorem reads_port (port : UInt16) :
    Reads (Digitless 10) readPort (':' :: IpAddr.decimal port.toNat) port := by
  have hnumber := (reads_checked true port.toNat_lt).map (f := UInt16.ofNat)
  rw [UInt16.ofNat_toNat] at hnumber
  exact (reads_char (P := fun _ => True) ':').bind hnumber fun _ _ => trivial

theorem reads_lastPort (port : UInt16) :
    Reads (fun rest => rest = []) readPort (':' :: IpAddr.decimal port.toNat) port :=
  (reads_port port).mono fun _ hrest => hrest ▸ digitless_nil

/-- A zone of zero is not written, and no zone is read as zero. -/
theorem reads_scopeId (scopeId : UInt32) :
    Reads (fun rest => rest.head? = some ']') (readScopeId <|> pure 0)
      (if scopeId = 0 then [] else '%' :: IpAddr.decimal scopeId.toNat) scopeId := by
  split_ifs with h
  · subst h
    refine Reads.or_right (fun rest hrest => ?_) (reads_pure 0)
    exact bind_eq_none (char_eq_none (by simp [hrest]))
  · refine Reads.or_left ?_
    have hnumber := (reads_checked true scopeId.toNat_lt).map (f := UInt32.ofNat)
    rw [UInt32.ofNat_toNat] at hnumber
    refine (reads_char (P := fun _ => True) '%').bind (fun rest hrest => hnumber rest ?_) fun _ _ => trivial
    intro c hc
    rw [hrest] at hc
    cases hc
    decide

theorem reads_socketAddrV4 (a b c d : UInt8) (port : UInt16) :
    Reads (fun rest => rest = []) readSocketAddrV4 (SocketAddr.v4 a b c d port).toText (.v4 a b c d port) := by
  refine (reads_ipv4Addr a b c d).bind (u := ':' :: IpAddr.decimal port.toNat) ?_ ?_
  · exact (reads_lastPort port).map
  · exact fun _ _ => digitless_cons (by decide) _

theorem reads_socketAddrV6 (s : Vector UInt16 8) (port : UInt16) (scopeId : UInt32) :
    Reads (fun rest => rest = []) readSocketAddrV6 (SocketAddr.v6 s port scopeId).toText (.v6 s port scopeId) := by
  have htext : (SocketAddr.v6 s port scopeId).toText = ['['] ++ ((IpAddr.v6 s).toText ++
      ((if scopeId = 0 then [] else '%' :: IpAddr.decimal scopeId.toNat) ++
        ([']'] ++ ':' :: IpAddr.decimal port.toNat))) := by
    simp only [SocketAddr.toText, SocketAddr.hostText, List.cons_append, List.nil_append, List.append_assoc]
  rw [htext]
  refine (reads_char (P := fun _ => True) '[').bind ?_ fun _ _ => trivial
  refine (reads_ipv6Addr s).bind ?_ fun rest _ => ?_
  · refine (reads_scopeId scopeId).bind ?_ fun _ _ => rfl
    refine (reads_char (P := fun _ => True) ']').bind ?_ fun _ _ => trivial
    exact (reads_lastPort port).map
  · -- the address ends at its zone, or else at the bracket
    split_ifs
    · exact endsGroups_cons (by decide) (by decide) (by decide) _
    · exact endsGroups_cons (by decide) (by decide) (by decide) _

end AddrParse

open AddrParse in
/-- Every address is read back from its text. -/
theorem SocketAddr.parse_toText (addr : SocketAddr) : SocketAddr.parse addr.toText = some addr := by
  have hreads : Reads (fun rest => rest = []) (readSocketAddrV4 <|> readSocketAddrV6) addr.toText addr := by
    cases addr with
    | v4 a b c d port => exact (reads_socketAddrV4 a b c d port).or_left
    | v6 s port scopeId =>
        refine Reads.or_right (fun rest _ => ?_) (reads_socketAddrV6 s port scopeId)
        exact bind_eq_none (readIpv4Addr_of_digitless (digitless_cons (c := '[') (by decide) _))
  have hall := hreads [] rfl
  rw [List.append_nil] at hall
  rw [SocketAddr.parse, hall]

end Tuyau
