import Ledger.AmongClients
import Ledger.ClientAccounts
import Ledger.ClientSweep
import Ledger.Amounts
import Ledger.Minting
import Ledger.Wire
import Ledger.Termination
import Ledger.Reads
import Ledger.ErrorTexts
import Ledger.Opening
import Ledger.Balance
import Ledger.ConnectionString
import Ledger.Deployment
import Ledger.CurrencyTable
import Ledger.Resources
import Ledger.KeyHeader
