import SpendScript.Main
import SpendScript.Script.Assembler
import SpendScript.Script.Catalog
import SpendScript.Proofs.Script.Units
import SpendScript.Proofs.Script.Reading
import SpendScript.Proofs.Script.Grammar
import SpendScript.Proofs.Script.Items
import SpendScript.Proofs.Script.Outcome
import SpendScript.Proofs.Spend.Cover
import SpendScript.Proofs.Spend.Verdict
import SpendScript.Proofs.Script.Effect
import SpendScript.Proofs.Spend.PayToKeyHash
import SpendScript.Proofs.Spend.Unspendable
import SpendScript.Proofs.Wire.Forms
import SpendScript.Proofs.Wire.Reads
import SpendScript.Proofs.Wire.Takes
import SpendScript.Proofs.Wire.Transaction
import SpendScript.Proofs.Spend.Commitment
import SpendScript.Proofs.Spend.Independence
import SpendScript.Proofs.Base58.Radix
import SpendScript.Proofs.Wire.Layout
import SpendScript.Proofs.Wire.RoundTrip
import SpendScript.Proofs.Base58.Numeral
import SpendScript.Proofs.Base58.Bijection
import SpendScript.Proofs.Base58.Checksum
import SpendScript.Proofs.Script.Calls
import SpendScript.Proofs.Spend.Total
import SpendScript.Proofs.Digest.Sha256
import SpendScript.Proofs.Script.Words
import SpendScript.Proofs.Script.Arithmetic
import SpendScript.Proofs.Script.Truth
import SpendScript.Proofs.Script.Frame
import SpendScript.Proofs.Spend.Growth
import SpendScript.Proofs.Script.Assembly
import SpendScript.Proofs.Script.Multisig
import SpendScript.Proofs.CommandLine.Values
import SpendScript.Proofs.CommandLine.Grammar
import SpendScript.Proofs.CommandLine.Decision
import SpendScript.Proofs.CommandLine.Arguments
import SpendScript.Proofs.CommandLine.Exit
import SpendScript.Proofs.CommandLine.Listing
import SpendScript.Proofs.Script.Overflow
import SpendScript.Proofs.Spend.Trace
import SpendScript.Proofs.Wire.Cuts
import SpendScript.Proofs.Wire.ReadBack
import SpendScript.Proofs.Wire.Moves
import SpendScript.Proofs.Transaction.Coins
