import LegacyPhp.Main
import LegacyPhp.Proofs.Bundle.BrokenUnits
import LegacyPhp.Proofs.Bundle.KeptHtml
import LegacyPhp.Proofs.Bundle.LoaderRegions
import LegacyPhp.Proofs.Bundle.LoaderTail
import LegacyPhp.Proofs.Bundle.NamespaceForms
import LegacyPhp.Proofs.Bundle.OpenBlock
import LegacyPhp.Proofs.Closure.Again
import LegacyPhp.Proofs.Closure.Captures
import LegacyPhp.Proofs.Convert.AnyOrder
import LegacyPhp.Proofs.Convert.FixedPoint
import LegacyPhp.Proofs.Convert.Members
import LegacyPhp.Proofs.Convert.Native
import LegacyPhp.Proofs.Convert.VersionMarks
import LegacyPhp.Proofs.Include.Quoting
import LegacyPhp.Proofs.Include.Siblings
import LegacyPhp.Proofs.Name.Renamed
import LegacyPhp.Proofs.Qualify.ReferenceHints
import LegacyPhp.Proofs.Qualify.Scripts
import LegacyPhp.Proofs.Qualify.SpeltNames
import LegacyPhp.Proofs.Qualify.Trivia
import LegacyPhp.Proofs.Ternary.Assignments
import LegacyPhp.Proofs.Ternary.KeptTexts
import LegacyPhp.Proofs.Token.Delimited
import LegacyPhp.Proofs.Token.Deliveries
import LegacyPhp.Proofs.Token.Munch
