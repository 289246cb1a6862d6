import Marc21.Stream.Source

/-!
A stream that does not fail gives its bytes in order, however few it gives at a time and however often it
is interrupted: `take` gives the next bytes of what is upcoming and leaves the others (`take_spec`). After
going to an offset, the bytes behind it are upcoming (`seek_spec`).
-/

namespace Marc21.Source

/-- The bytes that are still to be taken, in order. -/
def upcoming (s : Source) : Bytes := s.ahead ++ s.content.toList.drop s.position

/-- A stream on which reading never fails. -/
def Steady (s : Source) : Prop := s.failAt = none

private theorem allowance_bounds {s : Source} (hs : s.Steady) {n : Nat} (hn : n ≠ 0) :
    1 ≤ s.allowance n ∧ s.allowance n ≤ n := by
  unfold Steady at hs
  unfold allowance
  rw [hs]
  cases s.schedule.most s.deliveries with
  | none => exact ⟨Nat.pos_of_ne_zero hn, Nat.le_refl n⟩
  | some m =>
    exact ⟨Nat.le_min.2 ⟨Nat.pos_of_ne_zero hn, Nat.le_add_left 1 m⟩, Nat.min_le_left n (m + 1)⟩

/-- One call gives the first bytes of what lies ahead, and none only at the end. -/
theorem fetch_spec {s t : Source} {n : Nat} {bs : Bytes} (hs : s.Steady) (hn : n ≠ 0)
    (h : s.fetch n = (.bytes bs, t)) :
    t.Steady ∧ t.ahead = s.ahead ∧ bs.length ≤ n ∧
      s.content.toList.drop s.position = bs ++ t.content.toList.drop t.position ∧
      (bs = [] → s.content.toList.drop s.position = []) := by
  unfold fetch at h
  split at h
  · cases h
  · dsimp only at h
    split at h
    · cases h
    · obtain ⟨hb, rfl⟩ := Prod.mk.inj h
      obtain rfl := Arrival.bytes.inj hb
      generalize hu : ({ s with deliveries := s.deliveries + 1, interrupted := 0 } : Source) = u
      have hallow := allowance_bounds (s := u) (by rw [← hu]; exact hs) hn
      have hlist : (s.content.extract s.position (s.position + u.allowance n)).toList =
          (s.content.toList.drop s.position).take (u.allowance n) := by
        rw [Array.toList_extract, List.extract_eq_take_drop, Nat.add_sub_cancel_left]
      refine ⟨hs, rfl, ?_, ?_, ?_⟩
      · rw [hlist, List.length_take]
        omega
      · rw [hlist, ← Array.length_toList, hlist, ← List.drop_drop]
        exact (List.prefix_iff_eq_append.1 (List.take_prefix _ _)).symm
      · intro hnil
        rw [hlist, List.take_eq_nil_iff] at hnil
        rcases hnil with hzero | hnil
        · omega
        · exact hnil

theorem fetch_interrupted_upcoming {s t : Source} {n : Nat} (h : s.fetch n = (.interrupted, t)) :
    t.failAt = s.failAt ∧ t.upcoming = s.upcoming := by
  unfold fetch at h
  split at h
  · obtain ⟨_, rfl⟩ := Prod.mk.inj h
    exact ⟨rfl, rfl⟩
  · dsimp only at h
    split at h <;> cases h

theorem fetch_ne_failed {s t : Source} {n : Nat} {failure : StreamFailure} (hs : s.Steady) :
    s.fetch n ≠ (.failed failure, t) := by
  intro h
  unfold fetch at h
  unfold Steady at hs
  split at h
  · cases h
  · dsimp only at h
    rw [hs] at h
    cases h

/-- A read gives the next bytes, and none only at the end. -/
theorem read_spec {s t : Source} {n : Nat} {bs : Bytes} (hs : s.Steady) (hn : n ≠ 0)
    (h : s.read n = (.bytes bs, t)) :
    t.Steady ∧ bs.length ≤ n ∧ s.upcoming = bs ++ t.upcoming ∧ (bs = [] → s.upcoming = []) := by
  unfold read at h
  split at h
  · next hahead =>
    obtain ⟨hb, rfl⟩ := Prod.mk.inj h
    obtain rfl := Arrival.bytes.inj hb
    refine ⟨hs, List.length_take_le n s.ahead, ?_, ?_⟩
    · rw [upcoming, upcoming, ← List.append_assoc, List.take_append_drop]
    · intro hnil
      rcases List.take_eq_nil_iff.1 hnil with hzero | hnil
      · exact absurd hzero hn
      · exact absurd hnil hahead
  · next hahead =>
    have hahead : s.ahead = [] := by simpa using hahead
    split at h
    · obtain ⟨ht, htahead, hlen, hbytes, hend⟩ := fetch_spec hs hn h
      refine ⟨ht, hlen, ?_, ?_⟩
      · rw [upcoming, upcoming, htahead, hahead, List.nil_append, List.nil_append, hbytes]
      · intro hnil
        rw [upcoming, hahead, hend hnil]
        rfl
    · next hblock =>
      split at h
      · next cs u hfetch =>
        obtain ⟨hu, huahead, hlen, hbytes, hend⟩ := fetch_spec hs (by omega) hfetch
        obtain ⟨hb, rfl⟩ := Prod.mk.inj h
        obtain rfl := Arrival.bytes.inj hb
        refine ⟨hu, List.length_take_le n cs, ?_, ?_⟩
        · rw [upcoming, hahead, List.nil_append, hbytes, upcoming, ← List.append_assoc,
            List.take_append_drop]
        · intro hnil
          rcases List.take_eq_nil_iff.1 hnil with hzero | hnil
          · exact absurd hzero hn
          · rw [upcoming, hahead, hend hnil]
            rfl
      · next hne => exact absurd h (hne bs t)

theorem read_interrupted_upcoming {s t : Source} {n : Nat} (hs : s.Steady)
    (h : s.read n = (.interrupted, t)) : t.Steady ∧ t.upcoming = s.upcoming := by
  have hfetch {m : Nat} (h : s.fetch m = (.interrupted, t)) : t.Steady ∧ t.upcoming = s.upcoming := by
    obtain ⟨hfail, hup⟩ := fetch_interrupted_upcoming h
    exact ⟨hfail.trans hs, hup⟩
  unfold read at h
  split at h
  · cases h
  · split at h
    · exact hfetch h
    · split at h
      · cases h
      · exact hfetch h

theorem read_ne_failed {s t : Source} {n : Nat} {failure : StreamFailure} (hs : s.Steady) :
    s.read n ≠ (.failed failure, t) := by
  intro h
  unfold read at h
  split at h
  · cases h
  · split at h
    · exact fetch_ne_failed hs h
    · split at h
      · cases h
      · exact fetch_ne_failed hs h

theorem takeFrom_spec {s : Source} (n : Nat) (got : Array UInt8) (hs : s.Steady) :
    ∃ t, s.takeFrom n got = (.ok (got.toList ++ s.upcoming.take n), t) ∧ t.Steady ∧
      t.upcoming = s.upcoming.drop n := by
  fun_induction takeFrom s n got with
  | case1 s got => exact ⟨s, by simp, hs, rfl⟩
  | case2 s n got hn failure t hr => exact absurd hr (read_ne_failed hs)
  | case3 s n got hn t hr ih =>
    obtain ⟨ht, hup⟩ := read_interrupted_upcoming hs hr
    rw [← hup]
    exact ih ht
  | case4 s n got hn t hr =>
    obtain ⟨ht, _, hbytes, hend⟩ := read_spec hs hn hr
    have hnil : t.upcoming = [] := by
      rw [hend rfl, List.nil_append] at hbytes
      exact hbytes.symm
    exact ⟨t, by simp [hend rfl], ht, by simp [hend rfl, hnil]⟩
  | case5 s n got hn bs t hr hbs ih =>
    obtain ⟨ht, hlen, hbytes, _⟩ := read_spec hs hn hr
    obtain ⟨u, htake, hu, hup⟩ := ih ht
    refine ⟨u, ?_, hu, ?_⟩
    · rw [htake, hbytes, Array.toList_appendList, List.append_assoc, List.take_append,
        List.take_of_length_le hlen]
    · rw [hup, hbytes, List.drop_append, List.drop_of_length_le hlen, List.nil_append]

/-- A failure of the first call is passed on. -/
theorem take_of_failed {s t : Source} {n : Nat} {failure : StreamFailure} (hn : n ≠ 0)
    (h : s.read n = (.failed failure, t)) : s.take n = (.error failure, t) := by
  rw [take, takeFrom, if_neg hn]
  split
  · next hr =>
    cases h.symm.trans hr
    rfl
  · next hr => cases h.symm.trans hr
  · next hr => cases h.symm.trans hr

/-- **A stream that does not fail gives the bytes asked for**, or all that are left. -/
theorem take_spec {s : Source} (n : Nat) (hs : s.Steady) :
    ∃ t, s.take n = (.ok (s.upcoming.take n), t) ∧ t.Steady ∧ t.upcoming = s.upcoming.drop n := by
  have hfrom := takeFrom_spec n #[] hs
  rw [List.nil_append] at hfrom
  exact hfrom

/-- Two states of one stream: its bytes are the same, and so is whether going back fails. -/
structure SameStream (s t : Source) : Prop where
  content_eq : t.content = s.content
  seekFailure_eq : t.seekFailure = s.seekFailure

theorem SameStream.trans {s t u : Source} (h : SameStream s t) (k : SameStream t u) : SameStream s u :=
  ⟨k.content_eq.trans h.content_eq, k.seekFailure_eq.trans h.seekFailure_eq⟩

theorem fetch_sameStream (s : Source) (n : Nat) : SameStream s (s.fetch n).2 := by
  unfold fetch
  split
  · exact ⟨rfl, rfl⟩
  · dsimp only
    split
    · exact ⟨rfl, rfl⟩
    · exact ⟨rfl, rfl⟩

theorem read_sameStream (s : Source) (n : Nat) : SameStream s (s.read n).2 := by
  unfold read
  split
  · exact ⟨rfl, rfl⟩
  · split
    · exact fetch_sameStream s n
    · have h := fetch_sameStream s s.block
      split
      · next hfetch =>
        rw [hfetch] at h
        exact ⟨h.content_eq, h.seekFailure_eq⟩
      · exact h

theorem takeFrom_sameStream (s : Source) (n : Nat) (got : Array UInt8) :
    SameStream s (s.takeFrom n got).2 := by
  fun_induction takeFrom s n got with
  | case1 => exact ⟨rfl, rfl⟩
  | case2 s n _ _ failure t hr =>
    have h := read_sameStream s n
    rw [hr] at h
    exact h
  | case3 s n _ _ t hr ih =>
    have h := read_sameStream s n
    rw [hr] at h
    exact h.trans ih
  | case4 s n _ _ t hr =>
    have h := read_sameStream s n
    rw [hr] at h
    exact h
  | case5 s n _ _ bs t hr _ ih =>
    have h := read_sameStream s n
    rw [hr] at h
    exact h.trans ih

theorem take_sameStream (s : Source) (n : Nat) : SameStream s (s.take n).2 :=
  takeFrom_sameStream s n #[]

theorem seek_spec {s : Source} (h : s.seekFailure = none) (offset : Nat) :
    ∃ t, s.seek offset = .ok t ∧ SameStream s t ∧ t.failAt = s.failAt ∧
      t.upcoming = s.content.toList.drop offset := by
  refine ⟨{ s with position := offset, ahead := [] }, ?_, ⟨rfl, rfl⟩, rfl, rfl⟩
  rw [seek, h]

theorem steady_ofBytes (bs : Bytes) : (ofBytes bs).Steady := rfl

@[simp] theorem upcoming_ofBytes (bs : Bytes) : (ofBytes bs).upcoming = bs := by
  simp [ofBytes, ofArray, upcoming]

end Marc21.Source
