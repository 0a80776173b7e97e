import LegacyPhp.Proofs.Bundle.HtmlSteps

/-!
# Text outside the code is kept

`fileHtml` is the text outside the code of a file and of all files that are inlined in it, each at
the place where it is reached; blank text behind the last close tag of a unit does not count. The
main statement, `finish_keeps_html`, compares it with the finished output: if inlining a file
succeeds with moves that fit (`fitAll`), the output can be read again, and what stands outside the
code in it is exactly that text. So no tag that was written shows as text, and no character of the
text is lost in one.

The proof follows a run. What a token does is known (`stepToken_stands`), a unit starts in the code
or with an empty output (`unitStart_stands`), and by induction over the tokens of a unit
(`copyTokens_rests`) and over the depth of inclusions (`addFileWith_keepsHtml`) every file shows
what it should.
-/

namespace LegacyPhp.Bundle

open Text Scan Closure List

variable {u : UnitContext} {inner : Path → Bundler → List Move} {rest : List Token}
  {b after : Bundler} {html : Text} {shown : Path → Bundler → Text}

/-! ## What the units show -/

/-- The text outside the code among the tokens that are left of a unit, `fileHtml` being that of the
files that they inline. Blank text behind the last close tag does not count. -/
def tokensHtml (u : UnitContext) (fileHtml : Path → Bundler → Text) (s : UnitState) :
    List Token → Text
  | [] => []
  | t :: rest =>
    let inlined := match inlineCall? u.tree u.origin s t with
      | none => []
      | some target => fileHtml target s.bundler
    let more := match stepToken u s t rest with
      | .next s => tokensHtml u fileHtml s rest
      | _ => if isUnitEnd rest then [] else htmlOf rest
    inlined ++ (htmlOf [t] ++ more)

/-- The text outside the code of a unit. -/
def contentHtmlWith (o : BundleOptions) (tree : FileTree) (inlineFile : Path → Bundler → Progress)
    (fileHtml : Path → Bundler → Text) (content : Text) (origin : Path) (b : Bundler) : Text :=
  match placedTokens o origin content with
  | .error _ => []
  | .ok (source, tokens) =>
    tokensHtml { options := o, tree, origin, source, inlineFile } fileHtml (unitStart b tokens)
      (unitTokens b tokens)

/-- The text outside the code of the unit in a file, unless it was inlined before. -/
def fileHtmlWith (o : BundleOptions) (tree : FileTree) : (depth : Nat) → Path → Bundler → Text
  | 0, _, _ => []
  | depth + 1, path, b =>
    match tree.canonical path with
    | .error _ => []
    | .ok c =>
      if b.visited.contains c then []
      else
        match tree.read c with
        | .error _ => []
        | .ok content =>
          match guarded o c content with
          | .error _ => []
          | .ok text =>
            contentHtmlWith o tree (addFileWith o tree depth) (fileHtmlWith o tree depth) text c
              ((Move.visit c).apply b)

/-- The text outside the code of the units that `addFile` inlines, in the order in which they are
reached. -/
def fileHtml (o : BundleOptions) (tree : FileTree) (path : Path) (b : Bundler) : Text :=
  fileHtmlWith o tree (maxDepth tree) path b

/-! ## Units -/

/-- The output shows `html` and is ready for a unit: it stands in the code, or is empty. -/
structure Ready (b : Bundler) (html : Text) : Prop where
  rests : Rests b html
  fresh : b.inCode = false → b.output = []

theorem ready_empty : Ready {} [] where
  rests := by
    show Shows {} Ends []
    exact ⟨fun more _ => by simp [Bundler.output], fun name hname => by simp at hname,
      nofun⟩
  fresh _ := rfl

theorem Ready.visit (h : Ready b html) (c : Path) : Ready ((Move.visit c).apply b) html where
  rests := h.rests.congr rfl rfl h.rests.names
  fresh := h.fresh

section Units

variable {o : BundleOptions} {tree : FileTree} {tokens : List Token}

theorem Ready.shows (h : Ready b html) (hout : b.inCode = false) (p : Text → Prop) :
    Shows b p html := by
  have hs := h.rests.outside hout
  have hempty := h.fresh hout
  have hnil : html = [] := by
    have hleads := hs.leads [] (.inl rfl)
    rw [hempty, hout] at hleads
    simpa using hleads.symm
  refine ⟨fun more _ => ?_, hs.names, fun hcode => by rw [hout] at hcode; cases hcode⟩
  rw [hempty, hnil, hout, map_nil_append]
  rfl

/-- A unit in front of its first token. -/
theorem unitStart_stands (h : Ready b html) (hreadable : Readable tokens)
    (hbreak : (leavesCode b tokens && startsWithBreak tokens) = false) :
    (unitStart b tokens).Stands (unitTokens b tokens) html := by
  cases hcode : b.inCode with
  | false =>
    have hjoins : joinsCode b tokens = false := by rw [joinsCode, hcode]; rfl
    have hleaves : leavesCode b tokens = false := by rw [leavesCode, hcode]; rfl
    have hbundler : (unitStart b tokens).bundler = b := by
      simp [unitStart, startMoves, hleaves]
    refine ⟨fun hin => ?_, fun _ => ⟨hjoins, ?_⟩, fun hne => absurd rfl hne⟩
    · rw [hbundler, hcode] at hin
      cases hin
    · rw [hbundler]
      exact h.shows hcode _
  | true =>
    obtain ⟨last, hbehind, hshows⟩ := h.rests.code hcode
    cases hjoins : joinsCode b tokens with
    | true =>
      have hbundler : (unitStart b tokens).bundler = b := by
        simp [unitStart, startMoves, leavesCode, hjoins]
      refine stands_of_code (by rw [hbundler]; exact hcode) (awaits_plain (by rwa [hbundler])
        fun _ hspace => ?_) (by rwa [hbundler]) fun hne => absurd rfl hne
      rw [show (unitStart b tokens).space from hjoins] at hspace
      cases hspace
    | false =>
      have hleaves : leavesCode b tokens := by rw [leavesCode, hcode, hjoins]; rfl
      have hbundler : (unitStart b tokens).bundler =
          { b.write "?>".toList with inCode := false } := by
        simp only [unitStart, startMoves, hleaves, if_true]
        rfl
      have htokens : unitTokens b tokens = tokens := by simp [unitTokens, hjoins]
      refine ⟨fun hin => ?_, fun _ => ⟨hjoins, ?_⟩, fun hne => absurd rfl hne⟩
      · rw [hbundler] at hin
        cases hin
      rw [hbundler, htokens, ← append_nil html]
      refine shows_write hshows.leads hshows.names (fun more hmore => ?_) (by simp)
      rw [hcode, map_nil_append]
      refine ⟨⟨not_meets_of_not_mem (by decide) last, by simp, by simp⟩, html?_leave ?_⟩
      refine hmore.lineBreak fun x hx hhtml => ?_
      cases tokens with
      | nil => cases hx
      | cons y rest =>
        obtain rfl : y = x := by simpa using hx
        obtain ⟨_, hread⟩ := hreadable.text (.inr hhtml)
        rw [hleaves] at hbreak
        exact ⟨hread.text_ne_nil, [], by simpa [startsWithBreak] using hbreak⟩

theorem unitStart_framed (hreadable : Readable tokens) (htagged : tagged false tokens)
    (horderly : orderly false none (unitTokens b tokens)) :
    (unitStart b tokens).Framed (unitTokens b tokens) where
  tagged := tagged_unitTokens htagged
  readable := by
    unfold unitTokens
    split
    · cases tokens with
      | nil => exact hreadable
      | cons t rest => exact hreadable.2
    · exact hreadable
  orderly := ⟨false, horderly, fun h => by rcases h with h | h <;> cases h⟩
  word := nofun

/-! ## Runs -/

/-- The files that a unit inlines do nothing but their moves and keep the text outside the code. -/
def KeepsHtml (inlineFile : Path → Bundler → Progress) (inner : Path → Bundler → List Move)
    (shown : Path → Bundler → Text) : Prop :=
  ∀ path b html after, Ready b html → fitAll b (inner path b) →
    inlineFile path b = (after, none) →
      after = applyAll (inner path b) b ∧ Rests after (html ++ shown path b)

/-- What comes of the verdict on a token, if the tokens behind it show what they should. -/
theorem verdict_rests {rest : List Token}
    (hrest : ∀ {s : UnitState} {html : Text}, s.Framed rest → s.Stands rest html →
      fitAll s.bundler (tokenMoves u inner s rest) →
      copyTokens u s rest = (after, none) →
        after = applyAll (tokenMoves u inner s rest) s.bundler ∧
          Rests after (html ++ tokensHtml u shown s rest))
    {v : Verdict} :
    v.Stands rest html → (∀ s', v = .next s' → s'.Framed rest) →
      (∀ b, v = .stop b → isUnitEnd rest) →
      fitAll v.bundler (match v with
        | .next s => tokenMoves u inner s rest
        | _ => []) →
      (match v with
        | .next s => copyTokens u s rest
        | .stop b => (b, none)
        | .fail b f => (b, some f)) = (after, none) →
      after = applyAll (match v with
        | .next s => tokenMoves u inner s rest
        | _ => []) v.bundler ∧
      Rests after (html ++ match v with
        | .next s => tokensHtml u shown s rest
        | _ => if isUnitEnd rest then [] else htmlOf rest) := by
  intro hstands hframed hstop hfits hcopy
  cases v with
  | next s => exact hrest (hframed s rfl) hstands hfits hcopy
  | stop b =>
    have hend := hstop b rfl
    cases hcopy
    simp only [hend, if_true, append_nil]
    exact ⟨rfl, hstands⟩
  | fail b f => cases hcopy

/-- The tokens of a unit show what they should if the files that they inline do. -/
theorem copyTokens_rests (hkeeps : KeepsHtml u.inlineFile inner shown) {s : UnitState}
    {ts : List Token} (hframed : s.Framed ts) (hstands : s.Stands ts html)
    (hfits : fitAll s.bundler (tokenMoves u inner s ts))
    (hcopy : copyTokens u s ts = (after, none)) :
    after = applyAll (tokenMoves u inner s ts) s.bundler ∧
      Rests after (html ++ tokensHtml u shown s ts) := by
  induction ts generalizing s html with
  | nil =>
    cases hcopy
    rw [tokensHtml, append_nil]
    exact ⟨rfl, hstands.rests_nil⟩
  | cons t rest ih =>
    unfold copyTokens at hcopy
    unfold tokenMoves at hfits ⊢
    unfold tokensHtml
    cases hcall : inlineCall? u.tree u.origin s t with
    | none =>
      have hidle := @stepToken_inlineFile u s t rest hcall
        (idleUnit u.options u.tree u.origin u.source).inlineFile
      simp only [hcall, fitAll_append, Bool.and_eq_true] at hfits
      have hnext : (stepToken u s t rest).Stands rest (html ++ htmlOf [t]) := by
        rw [← hidle]
        exact @stepToken_stands (idleUnit u.options u.tree u.origin u.source) _ _ _ _ hstands
          hframed hcall hfits.1
      have hbundler : applyAll (stepMoves (idleUnit u.options u.tree u.origin u.source) s t rest)
          s.bundler = (stepToken u s t rest).bundler := by
        rw [← hidle]
        exact (@stepToken_bundler (idleUnit u.options u.tree u.origin u.source) _ _ _ hcall).symm
      rw [hbundler] at hfits
      simp only [applyAll_append, hbundler, nil_append, ← append_assoc]
      refine verdict_rests ih hnext (fun s' hs' => stepToken_framed hframed hcall hs')
        (fun b hb => ?_) hfits.2 hcopy
      rcases stepToken_stop hb with hend | ⟨_, hend⟩
      · rw [(hframed.readable.last hend).2]
        rfl
      · exact hend
    | some target =>
      obtain ⟨word, hpending, _⟩ := pending_of_inlineCall? hcall
      have hin := hframed.tagged.inCode hpending
      have hown := htmlOf_of_ne (hframed.not_html hin)
      rw [stepToken_of_inline hcall] at hcopy
      simp only [hcall, stepToken_of_inline hcall] at hfits ⊢
      rcases hinlined : u.inlineFile target s.bundler with ⟨middle, _ | f⟩
      · rw [hinlined] at hcopy hfits
        have hready : Ready s.bundler html :=
          ⟨hstands.rests hin hpending, fun hout => by rw [hin] at hout; cases hout⟩
        simp only [fitAll_append, Bool.and_eq_true] at hfits
        obtain ⟨hafter, hrests⟩ := hkeeps target s.bundler html middle hready hfits.1 hinlined
        rw [← hafter] at hfits
        have hnext := afterInline_stands hframed hcall hready.rests.names hrests hfits.2.1
        rw [← afterInline_bundler] at hfits
        simp only [applyAll_append, ← hafter, hown, nil_append, ← append_assoc]
        rw [← afterInline_bundler]
        refine verdict_rests ih hnext (fun s' hs' => afterInline_framed hframed hcall hs')
          (fun b hb => ?_) hfits.2.2 hcopy
        unfold afterInline at hb
        split at hb
        · exact (plainToken_stop hb).2
        · cases hb
      · rw [hinlined] at hcopy
        cases hcopy

/-- So does a unit that fits the bundle. -/
theorem addContentWith_rests {inlineFile : Path → Bundler → Progress}
    (hkeeps : KeepsHtml inlineFile inner shown) {content : Text} {origin : Path} (h : Ready b html)
    (hfits : fitAll b (contentMovesWith o tree inlineFile inner content origin b))
    (hadd : addContentWith o tree inlineFile content origin b = (after, none)) :
    after = applyAll (contentMovesWith o tree inlineFile inner content origin b) b ∧
      Rests after (html ++ contentHtmlWith o tree inlineFile shown content origin b) := by
  rw [addContentWith_eq] at hadd
  unfold contentMovesWith at hfits ⊢
  unfold contentHtmlWith
  rcases hplaced : placedTokens o origin content with f | ⟨source, tokens⟩
  · rw [hplaced] at hadd
    cases hadd
  · rw [hplaced] at hadd hfits
    simp only [fitAll, fitAll_append, Move.fits, Move.apply, Bool.and_eq_true, Bool.not_eq_true']
      at hfits
    obtain ⟨⟨horderly, hbreak⟩, _, hfits⟩ := hfits
    have hreadable : Readable tokens := by
      obtain ⟨ts, hlex, rfl⟩ := tokenizeUnit_eq_ok.1 (tokenizeUnit_of_placedTokens hplaced)
      exact readable_of_chain (chain_of_lexemes hlex) rfl rfl
    simp only [applyAll_cons, applyAll_append, Move.apply]
    exact @copyTokens_rests ⟨o, tree, origin, source, inlineFile⟩ _ _ _ _ hkeeps _ _
      (unitStart_framed hreadable (tagged_of_placedTokens hplaced) horderly)
      (unitStart_stands h hreadable hbreak) hfits hadd

/-- So does a file, at any depth. -/
theorem addFileWith_keepsHtml (depth : Nat) :
    KeepsHtml (addFileWith o tree depth) (fileMovesWith o tree depth)
      (fileHtmlWith o tree depth) := by
  induction depth with
  | zero =>
    intro path b html after h _ hadd
    cases hadd
    rw [fileHtmlWith, append_nil]
    exact ⟨rfl, h.rests⟩
  | succ depth ih =>
    intro path b html after h hfits hadd
    unfold addFileWith at hadd
    unfold fileMovesWith at hfits ⊢
    unfold fileHtmlWith
    cases hpath : tree.canonical path with
    | error e => rw [hpath] at hadd; cases hadd
    | ok c =>
      simp only [hpath] at hadd hfits ⊢
      by_cases hc : b.visited.contains c
      · simp only [hc, if_true] at hadd ⊢
        cases hadd
        rw [append_nil]
        exact ⟨rfl, h.rests⟩
      · simp only [hc, Bool.false_eq_true, if_false] at hadd hfits ⊢
        cases hread : tree.read c with
        | error e => rw [hread] at hadd; cases hadd
        | ok content =>
          simp only [hread] at hadd hfits ⊢
          cases hguard : guarded o c content with
          | error f => rw [hguard] at hadd; cases hadd
          | ok text =>
            simp only [hguard, fitAll, Bool.and_eq_true] at hadd hfits ⊢
            exact addContentWith_rests ih (h.visit c) hfits.2.2 hadd

end Units

/-! ## Files -/

theorem exists_tokenize {cs : Text} (h : html? false cs = some html) :
    ∃ tokens, tokenize cs = .ok tokens ∧ htmlOf tokens = html := by
  unfold html? at h
  cases hlex : lexFrom false {} 0 cs with
  | error e => rw [hlex] at h; cases h
  | ok ts =>
    rw [hlex] at h
    refine ⟨_, by rw [tokenize, lexemes, hlex]; rfl, ?_⟩
    rw [htmlOf_append, htmlOf_of_ne (by simp), append_nil]
    exact Option.some.inj h

/-- A file whose units do no harm is bundled with the text outside the code of all units in it, in
the order in which they are reached, and nothing else outside the code. -/
theorem finish_keeps_html {o : BundleOptions} {tree : FileTree} {root : Path} {b : Bundler}
    (hadd : addFile o tree root {} = (b, none))
    (hfits : fitAll {} (fileMoves o tree root {})) :
    ∃ tokens, tokenize b.finish = .ok tokens ∧ htmlOf tokens = fileHtml o tree root {} := by
  have hrests := addFileWith_keepsHtml (maxDepth tree) root {} [] b ready_empty hfits hadd
  exact exists_tokenize hrests.2.html?_finish

/-- A page with text around two files that it includes. The first one ends outside the code, and the
second one in blank text. -/
def pagesTree : FileTree where
  entries := [
    (["page.php".toList], .file (.text
      ("<h1>\n<?php include 'lib/menu.php'; f(1, 2,); ?>\n<p><?= 1 ?>\n\n</p>" ++
        "<?php require 'foot.php' ?> \n").toList)),
    (["lib".toList], .directory),
    (["lib".toList, "menu.php".toList], .file (.text
      "<ul><?php namespace N; use A\\B; /** m */ g(); include 'menu.php' ?> <li>\n".toList)),
    (["foot.php".toList], .file (.text "</ul><?php h($x); ?>\n\n".toList))]

theorem eq_of_snd_none {p : Progress} (h : p.2 = none) : p = (p.1, none) := by
  obtain ⟨b, f⟩ := p
  cases h
  rfl

theorem finish_keeps_html_pages :
    (addFile .legacy pagesTree "page.php".toList {}).2 = none ∧
      fitAll {} (fileMoves .legacy pagesTree "page.php".toList {}) ∧
      ∃ tokens,
        tokenize (addFile .legacy pagesTree "page.php".toList {}).1.finish = .ok tokens ∧
        htmlOf tokens = "<h1>\n<ul> <li>\n<p>\n</p></ul>".toList := by
  have hrun : (addFile .legacy pagesTree "page.php".toList {}).2 = none ∧
      fitAll {} (fileMoves .legacy pagesTree "page.php".toList {}) ∧
      fileHtml .legacy pagesTree "page.php".toList {} =
        "<h1>\n<ul> <li>\n<p>\n</p></ul>".toList := by
    decide +kernel
  obtain ⟨hadd, hfits, hpages⟩ := hrun
  obtain ⟨tokens, htokens, hhtml⟩ := finish_keeps_html (eq_of_snd_none hadd) hfits
  exact ⟨hadd, hfits, tokens, htokens, hhtml.trans hpages⟩

end LegacyPhp.Bundle
