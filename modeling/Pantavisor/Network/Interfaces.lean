/-
Pantavisor.Network.Interfaces — the metadata of the interfaces (`pv_network_update_meta` in
`network.c`).

The array of an interface and family is opened and closed by comparing an entry with the one
before it and the one behind it. The name of the one before it is not set at the first
address. From there on the text is right for a list in the order of Linux, the packet entries
first and the addresses of an interface and family together (`interfacesListed`).
-/
import Pantavisor.Listing.Fields

namespace Pantavisor.Network

open Pantavisor.Lib Pantavisor.Metadata Pantavisor.Listing

/-! ## The list of `getifaddrs` -/

/-- An address: what `getnameinfo` makes of it, or that of a packet socket. -/
inductive SockAddr where
  | inet (host : CStr)
  | inet6 (host : CStr)
  | packet
  deriving DecidableEq, Repr

/-- `IFNAMSIZ` -/
def ifNamSiz : Nat := 16

/-- `struct ifaddrs`. An interface has a name of less than `IFNAMSIZ` bytes. -/
structure Ifaddr where
  name : CStr
  addr : Option SockAddr
  fits : name.length < ifNamSiz
  deriving DecidableEq, Repr

/-- What is printed for a family: every other one is taken for IPv6. -/
def SockAddr.familyText : SockAddr → CStr
  | .inet _ => str "ipv4"
  | _ => str "ipv6"

/-- `"%s.%s"` -/
def ifaceKey (name : CStr) (a : SockAddr) : CStr := name ++ str "." ++ a.familyText

/-- The key of an entry and its host, unless the loop goes on with the next one. -/
def Ifaddr.address (e : Ifaddr) : Option (CStr × CStr) :=
  match e.addr with
  | none => none
  | some .packet => none
  | some (.inet host) => some (ifaceKey e.name (.inet host), host)
  | some (.inet6 host) => some (ifaceKey e.name (.inet6 host), host)

/-! ## The code -/

/-- The variables of the loop: `ifn` may not be set, and `ifaddrs` may be NULL. `ilen` and `len`
are the sizes of `ifaddrs` and `ifaces`. -/
structure Ifaces where
  ifn : Option CStr
  ifaddrs : Option CStr
  ilen : Nat
  ifaces : CStr
  len : Nat
  deriving DecidableEq, Repr

/-- A string is stored where there is room for it and its terminator. -/
def fitsIn (size : Nat) (s : CStr) : Option CStr := if s.length < size then some s else none

/-- A host is put into `ifaddrs`. -/
def Ifaces.addHost (s : Ifaces) (iff host : CStr) : Option Ifaces := do
  let ifn ← s.ifn
  if ifn = iff then
    let ilen := s.ilen + (host.length + 4)
    let t ← s.ifaddrs
    let ifaddrs ← fitsIn ilen (t ++ str ",\"" ++ host ++ str "\"")
    some { s with ilen := ilen, ifaddrs := some ifaddrs }
  else
    let ilen := host.length + 4
    let ifaddrs ← fitsIn ilen (str "\"" ++ host ++ str "\"")
    some { s with ifn := some iff, ilen := ilen, ifaddrs := some ifaddrs }

/-- `sizeof(IFACE_FMT)` -/
def ifaceFmtSize : Nat := 10

/-- An interface is put into `ifaces`, with a comma if there is a next entry. -/
def Ifaces.close (s : Ifaces) (ifn : CStr) (more : Bool) : Option Ifaces := do
  let ifaddrs ← s.ifaddrs
  let buf ← fitsIn (ifaceFmtSize + ifn.length + ifaddrs.length)
    (str "\"" ++ ifn ++ str "\":[" ++ ifaddrs ++ str "]")
  let len := s.len + buf.length + 1
  let ifaces ← fitsIn len (s.ifaces ++ buf)
  let ifaces ← if more then fitsIn len (ifaces ++ str ",") else some ifaces
  some { s with ifn := some ifn, ifaces := ifaces, len := len }

/-- The loop for one entry; `none` where it is undefined. -/
def ifaceStep (s : Ifaces) (e : Ifaddr) (next : Option Ifaddr) : Option Ifaces :=
  match e.address with
  | none => some s
  | some (iff, host) => do
    let s ← s.addHost iff host
    match next with
    | none => s.close iff false
    | some n =>
      -- a next entry without an address is looked at all the same
      let a ← n.addr
      if iff = ifaceKey n.name a then some s else s.close iff true

def ifaceLoop : List Ifaddr → Ifaces → Option Ifaces
  | [], s => some s
  | e :: rest, s => (ifaceStep s e rest.head?).bind (ifaceLoop rest)

/-- What the loop begins with, where `ifn` holds what it happens to. -/
def Ifaces.start (ifn : Option CStr) : Ifaces := ⟨ifn, none, 0, str "\x7b", 2⟩

/-- `pv_network_update_meta` for a list, with the text that it adds. -/
def pvNetworkUpdateMeta (ifn : Option CStr) (entries : List Ifaddr) : Option CStr := do
  let s ← ifaceLoop entries (.start ifn)
  fitsIn (s.len + 1) (s.ifaces ++ str "\x7d")

/-! ## What it is to add -/

/-- The addresses of a list, each with its interface and family. -/
def addresses (entries : List Ifaddr) : List (CStr × CStr) := entries.filterMap Ifaddr.address

/-- The hosts of an interface and family. -/
def hostsOf (entries : List Ifaddr) (key : CStr) : List CStr :=
  ((addresses entries).filter fun a => a.1 = key).map (·.2)

/-- An element of an array is a string. -/
def HostItem (host : CStr) (item : JsonItem JsonValue) : Prop :=
  ∃ raw, item.value = .string raw ∧ StringText raw host

/-- A member has the hosts of an interface and family in its array, each once. -/
def KeyMember (entries : List Ifaddr) (key : CStr) (m : JsonMember JsonValue) : Prop :=
  StringText m.key key ∧ ∃ gap items, m.value = .array gap items ∧
    List.Forall₂ HostItem (hostsOf entries key) items

/-- The function is defined, and adds a JSON object with every address under its interface and
family and no key twice. -/
def Listed (entries : List Ifaddr) (result : Option CStr) : Prop :=
  ∃ text gap members keys, result = some text ∧ text = (JsonValue.object gap members).text ∧
    (JsonValue.object gap members).Valid ∧ List.Forall₂ (KeyMember entries) keys members ∧
    keys.Nodup ∧ ∀ key, key ∈ keys ↔ key ∈ (addresses entries).map (·.1)

/-- The order of Linux: the entries without an IP address come first, and behind them the
addresses of one interface and family after those of the other. Names and hosts are such as can
stand in a string. -/
structure Orderly (entries : List Ifaddr) : Prop where
  grouped : ∃ (skipped : List Ifaddr) (groups : List (CStr × List Ifaddr)),
    entries = skipped ++ groups.flatMap (·.2) ∧ (∀ e ∈ skipped, e.address = none) ∧
    (∀ g ∈ groups, g.2 ≠ [] ∧ ∀ e ∈ g.2, ∃ host, e.address = some (g.1, host)) ∧
    (groups.map (·.1)).Nodup
  plain : ∀ a ∈ addresses entries, AllUnescaped a.1 ∧ AllUnescaped a.2

/-! ## Before the first address -/

/-- Entries without an IP address change nothing. -/
theorem ifaceLoop_skipped {skipped : List Ifaddr} (h : ∀ e ∈ skipped, e.address = none)
    (rest : List Ifaddr) (s : Ifaces) : ifaceLoop (skipped ++ rest) s = ifaceLoop rest s := by
  induction skipped with
  | nil => rfl
  | cons e skipped ih =>
    rw [List.forall_mem_cons] at h
    rw [List.cons_append, ifaceLoop, ifaceStep, h.1]
    exact ih h.2

/-- The first address is compared with a name that is not set. -/
theorem ifaceLoop_unset {entries : List Ifaddr} (h : addresses entries ≠ []) {s : Ifaces}
    (hifn : s.ifn = none) : ifaceLoop entries s = none := by
  induction entries with
  | nil => exact absurd rfl h
  | cons e entries ih =>
    rw [ifaceLoop, ifaceStep]
    cases haddr : e.address with
    | none =>
      rw [addresses, List.filterMap_cons_none haddr] at h
      exact ih h
    | some a =>
      simp only [Ifaces.addHost, hifn, Option.bind_eq_bind, Option.bind_none]

theorem ifaceLoop_none {entries : List Ifaddr} (h : addresses entries = []) (s : Ifaces) :
    ifaceLoop entries s = some s := by
  have hskip : ∀ e ∈ entries, e.address = none := by
    rwa [addresses, List.filterMap_eq_nil_iff] at h
  have hloop := ifaceLoop_skipped hskip [] s
  rwa [List.append_nil] at hloop

/-! ## The texts -/

/-- A host in an array. -/
def hostItem (host : CStr) : JsonItem JsonValue := ⟨[], .string host, []⟩

def hostsText (hosts : List CStr) : CStr := JsonValue.itemsText (hosts.map hostItem)

/-- An interface and family with its hosts. -/
def keyMember (key : CStr) (hosts : List CStr) : JsonMember JsonValue :=
  ⟨[], key, [], [], .array [] (hosts.map hostItem), []⟩

theorem hostsText_singleton (host : CStr) : hostsText [host] = str "\"" ++ host ++ str "\"" := by
  have hquote : str "\"" = [quote] := by decide
  simp [hostsText, hostItem, JsonValue.itemsText, JsonValue.text, separator, quoted, hquote]

theorem hostsText_append {hosts : List CStr} (h : hosts ≠ []) (host : CStr) :
    hostsText (hosts ++ [host]) = hostsText hosts ++ str ",\"" ++ host ++ str "\"" := by
  have hquote : str "\"" = [quote] := by decide
  have hcomma : str ",\"" = [comma, quote] := by decide
  refine List.append_cancel_right (?_ : _ ++ [comma] = _ ++ [comma])
  have hitems : hosts.map hostItem ≠ [] := by simpa using h
  have hnext : (hosts ++ [host]).map hostItem ≠ [] := by simp
  have hall := flatMap_itemFrag hnext
  have hfront := flatMap_itemFrag hitems
  rw [hostsText, ← hall, List.map_append, List.flatMap_append, hfront, hquote, hcomma]
  simp [hostsText, hostItem, Listing.itemFrag, JsonValue.text, quoted]

/-- What `IFACE_FMT` makes of an interface. -/
theorem keyMember_frag (key : CStr) (hosts : List CStr) :
    memberFrag (keyMember key hosts)
      = str "\"" ++ key ++ str "\":[" ++ hostsText hosts ++ str "]" ++ str "," := by
  have hquote : str "\"" = [quote] := by decide
  have hopen : str "\":[" = [quote, colon, openBracket] := by decide
  have hclose : str "]" = [closeBracket] := by decide
  have hcomma : str "," = [comma] := by decide
  rw [hquote, hopen, hclose, hcomma]
  simp [memberFrag, keyMember, hostsText, JsonValue.text, quoted]

/-! ## One interface -/

/-- The loop is in the middle of an interface and family, with these hosts so far. -/
structure Holding (key : CStr) (hosts : List CStr) (s : Ifaces) : Prop where
  ifn : s.ifn = some key
  nonempty : hosts ≠ []
  ifaddrs : s.ifaddrs = some (hostsText hosts)
  room : (hostsText hosts).length < s.ilen

theorem fitsIn_eq {size : Nat} {s : CStr} (h : s.length < size) : fitsIn size s = some s := if_pos h

/-- The first host of an interface. -/
theorem addHost_first {s : Ifaces} {ifn key : CStr} (hifn : s.ifn = some ifn) (hne : ifn ≠ key)
    (host : CStr) :
    ∃ s', s.addHost key host = some s' ∧ Holding key [host] s' ∧ s'.ifaces = s.ifaces ∧
      s'.len = s.len := by
  have hroom : (str "\"" ++ host ++ str "\"").length < host.length + 4 := by
    have hquote : (str "\"").length = 1 := by decide
    simp only [List.length_append, hquote]
    omega
  refine ⟨{ s with ifn := some key, ilen := host.length + 4, ifaddrs := some (hostsText [host]) },
    ?_, ⟨rfl, by simp, rfl, by rwa [hostsText_singleton]⟩, rfl, rfl⟩
  simp only [Ifaces.addHost, hifn, Option.bind_eq_bind, Option.bind_some, if_neg hne,
    fitsIn_eq hroom, hostsText_singleton]

/-- One more. -/
theorem addHost_next {s : Ifaces} {key : CStr} {hosts : List CStr} (h : Holding key hosts s)
    (host : CStr) :
    ∃ s', s.addHost key host = some s' ∧ Holding key (hosts ++ [host]) s' ∧
      s'.ifaces = s.ifaces ∧ s'.len = s.len := by
  have hroom : (hostsText hosts ++ str ",\"" ++ host ++ str "\"").length
      < s.ilen + (host.length + 4) := by
    have hquote : (str "\"").length = 1 := by decide
    have hcomma : (str ",\"").length = 2 := by decide
    have := h.room
    simp only [List.length_append, hquote, hcomma]
    omega
  refine ⟨{ s with
      ilen := s.ilen + (host.length + 4)
      ifaddrs := some (hostsText (hosts ++ [host])) }, ?_,
    ⟨h.ifn, by simp, rfl, by rwa [hostsText_append h.nonempty]⟩, rfl, rfl⟩
  simp only [Ifaces.addHost, h.ifn, Option.bind_eq_bind, Option.bind_some, if_true, h.ifaddrs,
    fitsIn_eq hroom, hostsText_append h.nonempty]

/-- An interface that is put into `ifaces`, where the size was counted along. -/
theorem close_holding {s : Ifaces} {key : CStr} {hosts : List CStr} (h : Holding key hosts s)
    (hlen : s.ifaces.length < s.len) (more : Bool) :
    ∃ s', s.close key more = some s' ∧ s'.ifn = some key ∧
      s'.ifaces ++ (if more then [] else [comma]) = s.ifaces ++ memberFrag (keyMember key hosts) ∧
      s'.ifaces.length < s'.len := by
  let buf := str "\"" ++ key ++ str "\":[" ++ hostsText hosts ++ str "]"
  have hcomma : str "," = [comma] := by decide
  have hbuf : buf.length < ifaceFmtSize + key.length + (hostsText hosts).length := by
    have hquote : (str "\"").length = 1 := by decide
    have hopen : (str "\":[").length = 3 := by decide
    have hclose : (str "]").length = 1 := by decide
    simp only [buf, List.length_append, hquote, hopen, hclose, ifaceFmtSize]
    omega
  have hroom : (s.ifaces ++ buf).length < s.len + buf.length + 1 := by
    rw [List.length_append]
    omega
  have hroomComma : (s.ifaces ++ buf ++ str ",").length < s.len + buf.length + 1 := by
    rw [List.length_append, List.length_append, hcomma, List.length_singleton]
    omega
  have hfrag : memberFrag (keyMember key hosts) = buf ++ [comma] := by
    rw [keyMember_frag, hcomma]
  cases more with
  | false =>
    refine ⟨⟨some key, s.ifaddrs, s.ilen, s.ifaces ++ buf, s.len + buf.length + 1⟩, ?_, rfl, ?_,
      hroom⟩
    · simp only [Ifaces.close, h.ifaddrs, Option.bind_eq_bind, Option.bind_some, fitsIn_eq hbuf,
        fitsIn_eq hroom, Bool.false_eq_true, if_false, buf]
    · rw [hfrag]
      exact List.append_assoc ..
  | true =>
    refine ⟨⟨some key, s.ifaddrs, s.ilen, s.ifaces ++ buf ++ str ",", s.len + buf.length + 1⟩, ?_,
      rfl, ?_, hroomComma⟩
    · simp only [Ifaces.close, h.ifaddrs, Option.bind_eq_bind, Option.bind_some, fitsIn_eq hbuf,
        fitsIn_eq hroom, fitsIn_eq hroomComma, if_true, buf]
    · rw [hfrag, if_pos rfl, List.append_nil, hcomma, List.append_assoc]

/-- The key of an entry is that of its address. -/
theorem addr_of_address {e : Ifaddr} {key host : CStr} (h : e.address = some (key, host)) :
    ∃ a, e.addr = some a ∧ ifaceKey e.name a = key := by
  unfold Ifaddr.address at h
  split at h
  · cases h
  · cases h
  · rename_i haddr
    exact ⟨_, haddr, (Prod.mk.inj (Option.some.inj h)).1⟩
  · rename_i haddr
    exact ⟨_, haddr, (Prod.mk.inj (Option.some.inj h)).1⟩

/-- The hosts of some entries. -/
def hosts (es : List Ifaddr) : List CStr := (es.filterMap Ifaddr.address).map (·.2)

/-- The entries of one interface and family. -/
def OfKey (key : CStr) (es : List Ifaddr) : Prop := ∀ e ∈ es, ∃ host, e.address = some (key, host)

/-- What follows begins with another one, if there is something. -/
def OtherKey (key : CStr) (after : List Ifaddr) : Prop :=
  ∀ e ∈ after.head?, ∃ other host, e.address = some (other, host) ∧ other ≠ key

/-- **One interface and family**, from an entry of it whose host goes into `ifaddrs`. -/
theorem loop_group {key : CStr} {es after : List Ifaddr} (hes : OfKey key es)
    (hafter : OtherKey key after) {s s₁ : Ifaces} {e : Ifaddr} {host : CStr}
    {before : List CStr} (he : e.address = some (key, host)) (hadd : s.addHost key host = some s₁)
    (hholding : Holding key before s₁) (hlen : s₁.ifaces.length < s₁.len) :
    ∃ s', ifaceLoop (e :: es ++ after) s = ifaceLoop after s' ∧ s'.ifn = some key ∧
      s'.ifaces ++ (if after = [] then [comma] else [])
        = s₁.ifaces ++ memberFrag (keyMember key (before ++ hosts es)) ∧
      s'.ifaces.length < s'.len := by
  induction es generalizing s s₁ e host before with
  | nil =>
    rw [show hosts [] = [] from rfl, List.append_nil]
    cases after with
    | nil =>
      obtain ⟨s', hclose, hifn, htext, hlen'⟩ := close_holding hholding hlen false
      refine ⟨s', ?_, hifn, htext, hlen'⟩
      simp only [List.append_nil, ifaceLoop, ifaceStep, he, List.head?_nil, hadd,
        Option.bind_eq_bind, Option.bind_some, hclose]
    | cons n after =>
      obtain ⟨s', hclose, hifn, htext, hlen'⟩ := close_holding hholding hlen true
      obtain ⟨other, host', hn, hne⟩ := hafter n rfl
      obtain ⟨a, ha, hkey⟩ := addr_of_address hn
      have hne' : ¬ key = ifaceKey n.name a := fun h => hne (hkey.symm.trans h.symm)
      refine ⟨s', ?_, hifn, by rw [if_neg (List.cons_ne_nil _ _)]; exact htext, hlen'⟩
      rw [List.cons_append, List.nil_append, ifaceLoop]
      simp only [ifaceStep, he, List.head?_cons, hadd, Option.bind_eq_bind, Option.bind_some, ha,
        if_neg hne', hclose]
  | cons e' es ih =>
    obtain ⟨⟨host', he'⟩, hes⟩ := List.forall_mem_cons.mp hes
    obtain ⟨a, ha, hkey⟩ := addr_of_address he'
    obtain ⟨s₂, hadd₂, hholding₂, hifaces, hlen₂⟩ := addHost_next hholding host'
    obtain ⟨s', hloop, hifn, htext, hlen'⟩ :=
      ih hes he' hadd₂ hholding₂ (by rw [hifaces, hlen₂]; exact hlen)
    refine ⟨s', ?_, hifn, ?_, hlen'⟩
    · rw [← hloop, List.cons_append, ifaceLoop]
      simp only [List.cons_append, ifaceStep, he, List.head?_cons, hadd, Option.bind_eq_bind,
        Option.bind_some, ha, hkey, if_true]
    · have hhosts : hosts (e' :: es) = host' :: hosts es := by
        rw [hosts, List.filterMap_cons_some he', List.map_cons]
        rfl
      rw [htext, hifaces, hhosts, List.append_assoc, List.singleton_append]

/-! ## The list -/

/-- A list in groups, one for each interface and family. -/
def Groups (groups : List (CStr × List Ifaddr)) : Prop :=
  ∀ g ∈ groups, g.2 ≠ [] ∧ OfKey g.1 g.2

def groupMembers (groups : List (CStr × List Ifaddr)) : List (JsonMember JsonValue) :=
  groups.map fun g => keyMember g.1 (hosts g.2)

theorem otherKey_of_groups {key : CStr} {groups : List (CStr × List Ifaddr)} (h : Groups groups)
    (hkey : key ∉ groups.map (·.1)) : OtherKey key (groups.flatMap (·.2)) := by
  intro e he
  cases groups with
  | nil => cases he
  | cons g groups =>
    obtain ⟨hne, hof⟩ := h g (List.mem_cons_self ..)
    obtain ⟨e', es, hes⟩ := List.exists_cons_of_ne_nil hne
    rw [List.flatMap_cons, hes, List.cons_append, List.head?_cons] at he
    obtain rfl := Option.some.inj he
    obtain ⟨host, haddr⟩ := hof e' (by rw [hes]; exact List.mem_cons_self ..)
    exact ⟨g.1, host, haddr, fun heq => hkey (by rw [← heq]; exact List.mem_cons_self ..)⟩

/-- **The loop over the groups**, with a name that is not that of the first one. -/
theorem loop_groups {groups : List (CStr × List Ifaddr)} (h : Groups groups)
    (hnodup : (groups.map (·.1)).Nodup) {s : Ifaces} {ifn : CStr} (hifn : s.ifn = some ifn)
    (hfirst : ∀ g ∈ groups.head?, ifn ≠ g.1) (hlen : s.ifaces.length < s.len)
    (hne : groups ≠ []) :
    ∃ s', ifaceLoop (groups.flatMap (·.2)) s = some s' ∧
      s'.ifaces ++ [comma] = s.ifaces ++ (groupMembers groups).flatMap memberFrag ∧
      s'.ifaces.length < s'.len := by
  induction groups generalizing s ifn with
  | nil => exact absurd rfl hne
  | cons g groups ih =>
    obtain ⟨⟨hgne, hof⟩, hgroups⟩ := List.forall_mem_cons.mp h
    obtain ⟨hnot, hnodup⟩ := List.nodup_cons.mp hnodup
    obtain ⟨e, es, hes⟩ := List.exists_cons_of_ne_nil hgne
    rw [hes] at hof
    obtain ⟨⟨host, he⟩, hof⟩ := List.forall_mem_cons.mp hof
    obtain ⟨s₁, hadd, hholding, hifaces, hlen₁⟩ := addHost_first hifn (hfirst g rfl) host
    obtain ⟨s₂, hloop, hifn₂, htext, hlen₂⟩ := loop_group hof (otherKey_of_groups hgroups hnot) he
      hadd hholding (by rw [hifaces, hlen₁]; exact hlen)
    have hhosts : [host] ++ hosts es = hosts g.2 := by
      rw [hes, hosts, hosts, List.filterMap_cons_some he, List.map_cons, List.singleton_append]
    rw [hhosts, hifaces] at htext
    rw [List.flatMap_cons, hes, hloop]
    by_cases hlast : groups = []
    · subst hlast
      refine ⟨s₂, rfl, ?_, hlen₂⟩
      rw [List.flatMap_nil, if_pos rfl] at htext
      rw [htext, groupMembers, List.map_singleton, List.flatMap_singleton]
    · have hrest : groups.flatMap (·.2) ≠ [] := by
        obtain ⟨g', groups', rfl⟩ := List.exists_cons_of_ne_nil hlast
        rw [List.flatMap_cons]
        exact List.append_ne_nil_of_left_ne_nil (hgroups g' (List.mem_cons_self ..)).1 _
      rw [if_neg hrest, List.append_nil] at htext
      have hfirst' : ∀ g' ∈ groups.head?, g.1 ≠ g'.1 := fun g' hg' heq =>
        hnot (List.mem_map.mpr ⟨g', List.mem_of_mem_head? hg', heq.symm⟩)
      obtain ⟨s', hend, htext', hlen'⟩ := ih hgroups hnodup hifn₂ hfirst' hlen₂ hlast
      refine ⟨s', hend, ?_, hlen'⟩
      have hmembers : groupMembers (g :: groups)
          = keyMember g.1 (hosts g.2) :: groupMembers groups := rfl
      rw [htext', htext, hmembers, List.flatMap_cons, ← List.append_assoc]

/-- What the function adds for groups: an object of them. -/
theorem update_groups {groups : List (CStr × List Ifaddr)} (h : Groups groups)
    (hnodup : (groups.map (·.1)).Nodup) {ifn : CStr} (hfirst : ∀ g ∈ groups.head?, ifn ≠ g.1)
    {skipped : List Ifaddr} (hskip : ∀ e ∈ skipped, e.address = none) :
    pvNetworkUpdateMeta (some ifn) (skipped ++ groups.flatMap (·.2))
      = some (JsonValue.object [] (groupMembers groups)).text := by
  have hopen : str "\x7b" = [openBrace] := by decide
  have hclose : str "\x7d" = [closeBrace] := by decide
  rw [pvNetworkUpdateMeta, ifaceLoop_skipped hskip]
  by_cases hne : groups = []
  · subst hne
    rfl
  · have hstart : (Ifaces.start (some ifn)).ifaces.length < (Ifaces.start (some ifn)).len := by
      rw [Ifaces.start, hopen]
      exact Nat.one_lt_two
    obtain ⟨s, hloop, htext, hlen⟩ := loop_groups h hnodup rfl hfirst hstart hne
    have hroom : (s.ifaces ++ str "\x7d").length < s.len + 1 := by
      rw [hclose, List.length_append, List.length_singleton]
      omega
    rw [hloop, Option.bind_eq_bind, Option.bind_some, fitsIn_eq hroom]
    have hmembers : groupMembers groups ≠ [] := by simpa [groupMembers] using hne
    rw [flatMap_memberFrag hmembers, ← List.append_assoc] at htext
    have hifaces : s.ifaces = openBrace :: JsonValue.membersText (groupMembers groups) := by
      rw [List.append_cancel_right htext, Ifaces.start, hopen, List.singleton_append]
    rw [hifaces, hclose, JsonValue.text, List.nil_append, List.cons_append]

/-! ## The list that is added -/

theorem addresses_append (es es' : List Ifaddr) :
    addresses (es ++ es') = addresses es ++ addresses es' := List.filterMap_append

theorem hostsOf_append (es es' : List Ifaddr) (key : CStr) :
    hostsOf (es ++ es') key = hostsOf es key ++ hostsOf es' key := by
  rw [hostsOf, addresses_append, List.filter_append, List.map_append]
  rfl

/-- All addresses of a group have its key. -/
theorem mem_addresses_of_key {key : CStr} {es : List Ifaddr} (h : OfKey key es)
    {a : CStr × CStr} (ha : a ∈ addresses es) : a.1 = key := by
  obtain ⟨e, he, haddr⟩ := List.mem_filterMap.mp ha
  obtain ⟨host, hof⟩ := h e he
  rw [hof] at haddr
  rw [← Option.some.inj haddr]

theorem hostsOf_key {key : CStr} {es : List Ifaddr} (h : OfKey key es) :
    hostsOf es key = hosts es := by
  rw [hostsOf, List.filter_eq_self.mpr fun a ha => decide_eq_true (mem_addresses_of_key h ha)]
  rfl

/-- Groups of other keys have no host of it. -/
theorem hostsOf_others {key : CStr} {groups : List (CStr × List Ifaddr)} (h : Groups groups)
    (hkey : key ∉ groups.map (·.1)) : hostsOf (groups.flatMap (·.2)) key = [] := by
  rw [hostsOf, List.map_eq_nil_iff, List.filter_eq_nil_iff]
  intro a ha heq
  obtain ⟨e, he, haddr⟩ := List.mem_filterMap.mp ha
  obtain ⟨g, hg, hin⟩ := List.mem_flatMap.mp he
  have hof := mem_addresses_of_key (h g hg).2 (List.mem_filterMap.mpr ⟨e, hin, haddr⟩)
  exact hkey (List.mem_map.mpr ⟨g, hg, hof.symm.trans (of_decide_eq_true heq)⟩)

/-- The hosts of the key of a group are those of the group. -/
theorem hostsOf_groups {groups : List (CStr × List Ifaddr)} (h : Groups groups)
    (hnodup : (groups.map (·.1)).Nodup) {g : CStr × List Ifaddr} (hg : g ∈ groups) :
    hostsOf (groups.flatMap (·.2)) g.1 = hosts g.2 := by
  induction groups with
  | nil => cases hg
  | cons g' groups ih =>
    obtain ⟨⟨-, hof⟩, hgroups⟩ := List.forall_mem_cons.mp h
    obtain ⟨hnot, hnodup⟩ := List.nodup_cons.mp hnodup
    rw [List.flatMap_cons, hostsOf_append]
    rcases List.mem_cons.mp hg with rfl | hg
    · rw [hostsOf_key hof, hostsOf_others hgroups hnot, List.append_nil]
    · have hne : g'.1 ≠ g.1 := fun heq => hnot (List.mem_map.mpr ⟨g, hg, heq.symm⟩)
      have hothers : hostsOf g'.2 g.1 = [] := by
        rw [hostsOf, List.map_eq_nil_iff, List.filter_eq_nil_iff]
        intro a ha heq
        exact hne ((mem_addresses_of_key hof ha).symm.trans (of_decide_eq_true heq))
      rw [hothers, List.nil_append]
      exact ih hgroups hnodup hg

/-- The keys of the groups are those of the addresses. -/
theorem mem_keys_iff {groups : List (CStr × List Ifaddr)} (h : Groups groups) (key : CStr) :
    key ∈ groups.map (·.1) ↔ key ∈ (addresses (groups.flatMap (·.2))).map (·.1) := by
  constructor
  · intro hkey
    obtain ⟨g, hg, rfl⟩ := List.mem_map.mp hkey
    obtain ⟨hne, hof⟩ := h g hg
    obtain ⟨e, es, hes⟩ := List.exists_cons_of_ne_nil hne
    have he : e ∈ g.2 := by rw [hes]; exact List.mem_cons_self ..
    obtain ⟨host, haddr⟩ := hof e he
    exact List.mem_map.mpr ⟨(g.1, host),
      List.mem_filterMap.mpr ⟨e, List.mem_flatMap.mpr ⟨g, hg, he⟩, haddr⟩, rfl⟩
  · intro hkey
    obtain ⟨a, ha, rfl⟩ := List.mem_map.mp hkey
    obtain ⟨e, he, haddr⟩ := List.mem_filterMap.mp ha
    obtain ⟨g, hg, hin⟩ := List.mem_flatMap.mp he
    have hof := mem_addresses_of_key (h g hg).2 (List.mem_filterMap.mpr ⟨e, hin, haddr⟩)
    exact List.mem_map.mpr ⟨g, hg, hof.symm⟩

/-- A member is valid where nothing in it has to be escaped. -/
theorem keyMember_valid {key : CStr} {hosts : List CStr} (hkey : AllUnescaped key)
    (hhosts : ∀ host ∈ hosts, AllUnescaped host) : MemberValid (keyMember key hosts) := by
  have hnil : White [] := by simp [White]
  refine ⟨hnil, stringBody_of_unescaped hkey, hnil, hnil, ?_, hnil⟩
  rw [keyMember, JsonValue.Valid, itemsValid_iff]
  refine ⟨hnil, fun item hitem => ?_⟩
  obtain ⟨host, hhost, rfl⟩ := List.mem_map.mp hitem
  refine ⟨hnil, ?_, hnil⟩
  rw [hostItem, JsonValue.Valid]
  exact stringBody_of_unescaped (hhosts host hhost)

theorem keyMember_reads {entries : List Ifaddr} {key : CStr} (hkey : AllUnescaped key)
    (hhosts : ∀ host ∈ hostsOf entries key, AllUnescaped host) :
    KeyMember entries key (keyMember key (hostsOf entries key)) := by
  refine ⟨stringText_of_unescaped hkey, [], _, rfl, ?_⟩
  rw [List.forall₂_map_right_iff, List.forall₂_same]
  exact fun host hhost => ⟨host, rfl, stringText_of_unescaped (hhosts host hhost)⟩

/-- A list in order is added as it is to be. -/
theorem listed_of_orderly {entries : List Ifaddr} (h : Orderly entries) {ifn : CStr}
    (hfirst : ∀ a ∈ (addresses entries).head?, ifn ≠ a.1) :
    Listed entries (pvNetworkUpdateMeta (some ifn) entries) := by
  obtain ⟨skipped, groups, rfl, hskip, hgroups, hnodup⟩ := h.grouped
  have hgroups : Groups groups := hgroups
  have haddresses : addresses (skipped ++ groups.flatMap (·.2))
      = addresses (groups.flatMap (·.2)) := by
    rw [addresses_append, addresses, List.filterMap_eq_nil_iff.mpr hskip, List.nil_append]
  have hhosts : ∀ g ∈ groups, hosts g.2 = hostsOf (skipped ++ groups.flatMap (·.2)) g.1 := by
    intro g hg
    rw [hostsOf, haddresses, ← hostsOf_groups hgroups hnodup hg]
    rfl
  have hfirst' : ∀ g ∈ groups.head?, ifn ≠ g.1 := by
    intro g hg heq
    cases groups with
    | nil => cases hg
    | cons g' groups =>
      obtain rfl := Option.some.inj hg
      obtain ⟨hne, hof⟩ := hgroups g' (List.mem_cons_self ..)
      obtain ⟨e, es, hes⟩ := List.exists_cons_of_ne_nil hne
      obtain ⟨host, he⟩ := hof e (by rw [hes]; exact List.mem_cons_self ..)
      refine hfirst (g'.1, host) ?_ heq
      rw [haddresses, List.flatMap_cons, hes, List.cons_append, addresses,
        List.filterMap_cons_some he]
      rfl
  have hplain : ∀ key ∈ groups.map (·.1), AllUnescaped key ∧
      ∀ host ∈ hostsOf (skipped ++ groups.flatMap (·.2)) key, AllUnescaped host := by
    intro key hkey
    constructor
    · rw [mem_keys_iff hgroups, ← haddresses] at hkey
      obtain ⟨a, ha, rfl⟩ := List.mem_map.mp hkey
      exact (h.plain a ha).1
    · intro host hhost
      obtain ⟨a, ha, rfl⟩ := List.mem_map.mp hhost
      exact (h.plain a (List.mem_of_mem_filter ha)).2
  have hmembers : groupMembers groups = (groups.map (·.1)).map fun key =>
      keyMember key (hostsOf (skipped ++ groups.flatMap (·.2)) key) := by
    rw [groupMembers, List.map_map]
    exact List.map_congr_left fun g hg => by rw [hhosts g hg]; rfl
  refine ⟨_, [], groupMembers groups, groups.map (·.1),
    update_groups hgroups hnodup hfirst' hskip, rfl, ?_, ?_, hnodup, fun key => ?_⟩
  · rw [JsonValue.Valid, membersValid_iff, hmembers]
    refine ⟨by simp [White], fun m hm => ?_⟩
    obtain ⟨key, hkey, rfl⟩ := List.mem_map.mp hm
    exact keyMember_valid (hplain key hkey).1 (hplain key hkey).2
  · rw [hmembers, List.forall₂_map_right_iff, List.forall₂_same]
    exact fun key hkey => keyMember_reads (hplain key hkey).1 (hplain key hkey).2
  · rw [haddresses]
    exact mem_keys_iff hgroups key

/-- **The metadata of the interfaces** is never right where there is an address, for the name
of the one before the first is not set. Where it were set to another one, it would be right for
every list in order. -/
theorem interfacesListed (entries : List Ifaddr) :
    (Listed entries (pvNetworkUpdateMeta none entries) ↔ addresses entries = []) ∧
      ∀ ifn, (∀ a ∈ (addresses entries).head?, ifn ≠ a.1) → Orderly entries →
        Listed entries (pvNetworkUpdateMeta (some ifn) entries) := by
  refine ⟨⟨fun h => ?_, fun h => ?_⟩, fun ifn hfirst h => listed_of_orderly h hfirst⟩
  · by_contra hne
    obtain ⟨text, -, -, -, hresult, -⟩ := h
    rw [pvNetworkUpdateMeta, ifaceLoop_unset hne rfl] at hresult
    cases hresult
  · refine ⟨_, [], [], [], ?_, rfl, ?_, .nil, .nil, fun key => ?_⟩
    · rw [pvNetworkUpdateMeta, ifaceLoop_none h]
      rfl
    · rw [JsonValue.Valid]
      exact ⟨by simp [White], trivial⟩
    · rw [h]
      rfl

/-- The loopback interface with its two addresses behind its packet entry. -/
def loopback : List Ifaddr :=
  [⟨str "lo", some .packet, by decide⟩, ⟨str "lo", some (.inet (str "127.0.0.1")), by decide⟩,
    ⟨str "lo", some (.inet6 (str "::1")), by decide⟩]

theorem interfacesListed_loopback :
    Listed loopback (pvNetworkUpdateMeta (some []) loopback) := by
  refine (interfacesListed loopback).2 [] (by decide) ⟨⟨loopback.take 1,
    [(str "lo.ipv4", (loopback.drop 1).take 1), (str "lo.ipv6", loopback.drop 2)],
    by decide, by decide, ?_, by decide⟩, by decide +kernel⟩
  intro g hg
  rcases List.mem_pair.mp hg with rfl | rfl
  · exact ⟨by decide, fun e he => ⟨str "127.0.0.1", by rw [List.mem_singleton.mp he]; decide⟩⟩
  · exact ⟨by decide, fun e he => ⟨str "::1", by rw [List.mem_singleton.mp he]; decide⟩⟩

/-- With the loopback interface, the first comparison reads a name that is not set. -/
theorem loopback_reads_unset : pvNetworkUpdateMeta none loopback = none ∧
    ¬ Listed loopback (pvNetworkUpdateMeta none loopback) := by
  have hnone : pvNetworkUpdateMeta none loopback = none := by decide
  refine ⟨hnone, fun h => ?_⟩
  obtain ⟨text, -, -, -, hresult, -⟩ := h
  rw [hnone] at hresult
  cases hresult

end Pantavisor.Network
