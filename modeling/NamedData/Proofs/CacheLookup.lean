import NamedData.Packet.Matching
import NamedData.Proofs.CacheRefinement

/-!
What the cache gives out. It looks for packets by where they stand in its tree, and an Interest is
compared with a packet by their names and the digest; both find the same packets. Of those that are
fresh enough the one with the least full name is given out, as it came in.
-/

namespace NamedData

/-! ### Names of packets that answer -/

/-- An Interest whose name is one component longer than a packet's is answered by it if the name is
the packet's full name. -/
theorem Interest.names_fullName_iff {i : Interest} {name : Name} {digest : Digest} :
    (i.namesDigestOf name && i.endsWith digest) = true ↔
      i.name = name.adding (.implicitDigest digest) := by
  rw [Bool.and_eq_true, namesDigestOf_eq_true]
  constructor
  · rintro ⟨⟨c, hc, hname⟩, hend⟩
    have hbytes : c.bytes = digest.bytes := by
      simpa [endsWith, hname, Name.adding] using hend
    have hcode : c.code = 1 := by
      have hkind : ComponentKind.ofCode c.code = .implicitDigest := of_decide_eq_true hc
      simpa [hkind, ComponentKind.code] using (ComponentKind.code_ofCode c.code).symm
    have hsame : c = .implicitDigest digest := by
      cases c
      simp_all [Component.implicitDigest]
    rw [hname, hsame]
  · intro hname
    exact ⟨⟨.implicitDigest digest, rfl, hname⟩, by simp [endsWith, hname, Name.adding,
      Component.implicitDigest]⟩

namespace ListedData

/-- Standing below the Interest's name, or right below it, is the same as answering the Interest. -/
theorem fits_iff_answered (name : Name) (digest : Digest) (i : Interest) :
    (if i.canBePrefix then i.name.begins (name.adding (.implicitDigest digest))
        else i.name = name.adding (.implicitDigest digest) || i.name = name) = true ↔
      i.isAnsweredBy name digest = true := by
  have hlonger : (name.adding (.implicitDigest digest)).length = name.length + 1 :=
    List.length_append
  rw [Interest.isAnsweredBy]
  by_cases hlength : i.name.length = name.length + 1
  · have hother : i.name ≠ name := fun same => by
      rw [same] at hlength
      omega
    rw [if_pos hlength, Interest.names_fullName_iff]
    cases i.canBePrefix with
    | true =>
        rw [if_pos rfl, Name.begins_iff_prefix]
        constructor
        · intro hbegins
          exact hbegins.eq_of_length (hlength.trans hlonger.symm)
        · rintro hsame
          exact hsame ▸ List.prefix_rfl
    | false => simp [hother]
  · have hother : i.name ≠ name.adding (.implicitDigest digest) := fun same =>
      hlength (same ▸ hlonger)
    rw [if_neg hlength]
    cases i.canBePrefix with
    | true =>
        simp only [if_true, Name.begins_iff_prefix, Name.adding, List.prefix_concat_iff]
        exact or_iff_right hother
    | false => simp [hother]

end ListedData

/-! ### Where a packet comes from -/

/-- A packet of the list after a call was in it before, or the call took it in and found no copy. -/
theorem CacheList.packet_origin (l : CacheList) (k : CacheCall) {p : ListedData}
    (hp : p ∈ (l.call k).2.packets) :
    (∃ q ∈ l.packets, q.data = p.data ∧ q.digest = p.digest) ∨
      ∃ data unsolicited now, k = .insert data p.digest unsolicited now ∧
        (∀ q ∈ l.packets, q.isCopy data.name p.digest = false) ∧
        p.data = { data with incomingFace := none } := by
  cases k with
  | insert data digest unsolicited now =>
      simp only [call, insert] at hp
      split at hp
      · obtain ⟨q, hq, rfl⟩ := List.mem_map.mp hp
        refine .inl ⟨q, hq, ?_⟩
        split <;> exact ⟨rfl, rfl⟩
      next hnew =>
        let arrived : ListedData :=
          { data := { data with incomingFace := none }, digest
            freshUntil := now.adding data.freshness, keptUntil := now.adding l.retention
            unsolicited }
        have hall : p ∈ l.packets ++ [arrived] := by
          dsimp only at hp
          split at hp
          · exact ListedData.withoutVictim_subset hp
          · exact hp
        rcases List.mem_append.mp hall with hold | hlast
        · exact .inl ⟨p, hold, rfl, rfl⟩
        · obtain rfl := List.mem_singleton.mp hlast
          exact .inr ⟨data, unsolicited, now, rfl, by simpa using hnew, rfl⟩
  | find i now =>
      simp only [call, find] at hp
      split at hp
      · obtain ⟨q, hq, rfl⟩ := List.mem_map.mp hp
        refine .inl ⟨q, hq, ?_⟩
        split <;> exact ⟨rfl, rfl⟩
      · exact .inl ⟨p, hp, rfl, rfl⟩
  | prune now => exact .inl ⟨p, (List.mem_filter.mp hp).1, rfl, rfl⟩

namespace Cache

/-- All packets in the cache, wherever they stand in the tree. -/
def packets (c : Cache) : List CachedData :=
  c.tree.values.filterMap id

/-- Some call took in a packet, when there was none of its name and digest, and through all calls
after it the packet has been kept as it came in. -/
def TookIn (start : Cache) (calls : List CacheCall) (data : Data) (digest : Digest) : Prop :=
  ∃ earlier unsolicited now later,
    calls = earlier ++ .insert data digest unsolicited now :: later ∧
    (start.after earlier).tree.get (data.name.adding (.implicitDigest digest)) = none ∧
    ∀ passed, passed <+: later → ∃ s,
      (start.after (earlier ++ .insert data digest unsolicited now :: passed)).tree.get
        (data.name.adding (.implicitDigest digest)) = some s ∧
      s.data = { data with incomingFace := none } ∧ s.digest = digest

variable {c : Cache} {l : CacheList} {stored : List CachedData} {s : CachedData}

theorem Holds.mem_packets (h : c.Holds stored) : s ∈ c.packets ↔ s ∈ stored :=
  h.tree.mem_values

theorem Mirrors.mem_listed (h : c.Mirrors l stored) {p : ListedData} :
    p ∈ l.packets ↔ ∃ s ∈ stored, s.listed = p := by
  rw [h.list, List.mem_map]

theorem Mirrors.packet_origin (h : c.Mirrors l stored) (k : CacheCall) {n : Name}
    (hread : (c.call k).2.tree.get n = some s) :
    (∃ t, c.tree.get n = some t ∧ t.data = s.data ∧ t.digest = s.digest) ∨
      ∃ data unsolicited now, k = .insert data s.digest unsolicited now ∧ c.tree.get n = none ∧
        n = data.name.adding (.implicitDigest s.digest) ∧
        s.data = { data with incomingFace := none } := by
  obtain ⟨-, stored', h'⟩ := h.call k
  obtain ⟨hs, rfl⟩ := (h'.holds.tree.get_iff n s).mp hread
  rcases l.packet_origin k (h'.mem_listed.mpr ⟨s, hs, rfl⟩) with
    ⟨q, hq, hdata, hdigest⟩ | ⟨data, unsolicited, now, hcall, hnew, hdata⟩
  · obtain ⟨t, ht, rfl⟩ := h.mem_listed.mp hq
    have hname : t.fullName = s.fullName := congrArg₂ (fun (d : Data) (g : Digest) =>
      d.name.adding (.implicitDigest g)) hdata hdigest
    exact .inl ⟨t, hname ▸ h.holds.tree.get_of_mem ht, hdata, hdigest⟩
  · have hdata : s.data = { data with incomingFace := none } := hdata
    have hname : s.fullName = data.name.adding (.implicitDigest s.digest) := by
      rw [CachedData.fullName, hdata]
    refine .inr ⟨data, unsolicited, now, hcall, ?_, hname, hdata⟩
    refine Option.eq_none_iff_forall_ne_some.mpr fun t ht => ?_
    obtain ⟨hmember, hsame⟩ := (h.holds.tree.get_iff _ t).mp ht
    have hcopy : t.listed.isCopy data.name s.digest = true :=
      ListedData.isCopy_iff_fullName.mpr (hsame.trans hname)
    cases hcopy.symm.trans (hnew _ (h.mem_listed.mpr ⟨t, hmember, rfl⟩))

theorem after_concat (c : Cache) (calls : List CacheCall) (k : CacheCall) :
    c.after (calls ++ [k]) = ((c.after calls).call k).2 := by
  simp [after]

/-- A packet that is still there after another call. -/
theorem TookIn.concat {calls : List CacheCall} {data : Data} {digest : Digest}
    (h : c.TookIn calls data digest) (k : CacheCall) {s : CachedData}
    (hread : (c.after (calls ++ [k])).tree.get (data.name.adding (.implicitDigest digest)) = some s)
    (hdata : s.data = { data with incomingFace := none }) (hdigest : s.digest = digest) :
    c.TookIn (calls ++ [k]) data digest := by
  obtain ⟨earlier, unsolicited, now, later, rfl, hnew, hkept⟩ := h
  refine ⟨earlier, unsolicited, now, later ++ [k], by simp, hnew, ?_⟩
  intro passed hpassed
  rcases List.prefix_concat_iff.mp hpassed with rfl | hpassed
  · exact ⟨s, by simpa using hread, hdata, hdigest⟩
  · exact hkept passed hpassed

/-- Every packet in the cache was taken in by one of the calls. -/
theorem Mirrors.tookIn (h : c.Mirrors l []) (calls : List CacheCall) {n : Name} {s : CachedData}
    (hread : (c.after calls).tree.get n = some s) :
    ∃ data, c.TookIn calls data s.digest ∧ n = data.name.adding (.implicitDigest s.digest) ∧
      s.data = { data with incomingFace := none } := by
  induction calls using List.reverseRecOn generalizing s with
  | nil => cases ((h.holds.tree.get_iff n s).mp hread).1
  | append_singleton calls k ih =>
      obtain ⟨stored, hbefore⟩ := h.after calls
      rcases hbefore.packet_origin k (c.after_concat calls k ▸ hread) with
        ⟨t, hget, hdata, hdigest⟩ | ⟨data, unsolicited, now, rfl, hnone, rfl, hdata⟩
      · obtain ⟨data, htook, rfl, hold⟩ := ih hget
        rw [hdata] at hold
        rw [hdigest] at htook hread ⊢
        exact ⟨data, htook.concat k hread hold rfl, rfl, hold⟩
      · refine ⟨data, ⟨calls, unsolicited, now, [], rfl, hnone, ?_⟩, rfl, hdata⟩
        intro passed hpassed
        rw [List.prefix_nil.mp hpassed]
        exact ⟨s, hread, hdata, rfl⟩

/-! ### What is given out -/

/-- Whether a packet may be given out for an Interest: it answers the Interest and is fresh
enough. -/
def Serves (s : CachedData) (i : Interest) (now : Timestamp) : Prop :=
  i.isAnsweredBy s.data.name s.digest = true ∧ (i.mustBeFresh = true → now < s.freshUntil)

theorem Holds.serves_iff (h : c.Holds stored) (i : Interest) (now : Timestamp) :
    (s ∈ c.packets ∧ Serves s i now) ↔
      s ∈ c.candidates i ∧ s.mayAnswer i.mustBeFresh now = true := by
  have hfresh : s.mayAnswer i.mustBeFresh now = true ↔
      (i.mustBeFresh = true → now < s.freshUntil) := by
    cases hmust : i.mustBeFresh <;> simp [CachedData.mayAnswer]
  rw [h.mem_packets, h.mem_candidates i, hfresh, Serves, and_assoc]
  exact and_congr_right fun _ => and_congr_left fun _ =>
    (ListedData.fits_iff_answered s.data.name s.digest i).symm

/-- The packet given out is the first one in the order of full names among those that may be. -/
theorem Holds.answer?_least (h : c.Holds stored) {i : Interest} {now : Timestamp}
    (hanswer : c.answer? i now = some s) :
    (s ∈ c.packets ∧ Serves s i now) ∧ ∀ t ∈ c.packets, Serves t i now →
      t = s ∨ compare s.fullName t.fullName = .lt := by
  obtain ⟨hgiven, hfirst⟩ := h.answer?_first hanswer
  refine ⟨(h.serves_iff i now).mpr hgiven, ?_⟩
  intro t ht hserves
  obtain ⟨hcandidate, hmay⟩ := (h.serves_iff i now).mp ⟨ht, hserves⟩
  exact hfirst t hcandidate hmay

theorem find_fst (c : Cache) (i : Interest) (now : Timestamp) :
    (c.find i now).1 = (c.answer? i now).map fun s => { s.data with incomingFace := none } := by
  rw [find]
  cases c.answer? i now <;> rfl

end Cache

/-- A cache finds a packet for an Interest if it has one that answers the Interest and is fresh
enough, whatever was called before. It gives out the one with the least full name of them, as it was
when it was taken in and without the tag of a face. -/
theorem find_gives_least_answer (capacity : Nat) (retention : Millis) (calls : List CacheCall)
    (i : Interest) (now : Timestamp) :
    let c := (Cache.new capacity retention).after calls
    ((c.find i now).1.isSome = true ↔ ∃ s ∈ c.packets, Cache.Serves s i now) ∧
      ∀ given, (c.find i now).1 = some given → ∃ s ∈ c.packets, Cache.Serves s i now ∧
        (∀ t ∈ c.packets, Cache.Serves t i now →
          t = s ∨ compare s.fullName t.fullName = .lt) ∧
        ∃ data, (Cache.new capacity retention).TookIn calls data s.digest ∧
          s.fullName = data.name.adding (.implicitDigest s.digest) ∧
          given = { data with incomingFace := none } := by
  have hnew := Cache.mirrors_new capacity retention
  obtain ⟨stored, h⟩ := hnew.after calls
  simp only [Cache.find_fst, Option.isSome_map]
  constructor
  · constructor
    · intro hsome
      obtain ⟨s, hanswer⟩ := Option.isSome_iff_exists.mp hsome
      obtain ⟨⟨hs, hserves⟩, -⟩ := h.holds.answer?_least hanswer
      exact ⟨s, hs, hserves⟩
    · rintro ⟨s, hs, hserves⟩
      obtain ⟨hcandidate, hmay⟩ := (h.holds.serves_iff i now).mp ⟨hs, hserves⟩
      exact List.find?_isSome.mpr ⟨s, hcandidate, hmay⟩
  · intro given hgiven
    obtain ⟨s, hanswer, rfl⟩ := Option.map_eq_some_iff.mp hgiven
    obtain ⟨⟨hs, hserves⟩, hleast⟩ := h.holds.answer?_least hanswer
    have hread := h.holds.tree.get_of_mem (h.holds.mem_packets.mp hs)
    obtain ⟨data, htook, hname, hdata⟩ := hnew.tookIn calls hread
    exact ⟨s, hs, hserves, hleast, data, htook, hname, by rw [hdata]⟩

end NamedData
